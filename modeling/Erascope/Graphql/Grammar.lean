import Mathlib.Tactic
import Mathlib.Data.List.TakeWhile
import Erascope.Graphql.Ast

/-!
# The grammar of GraphQL

How a text is a document. `gql` of `graphql-tag` is not part of the repository; what is relied
on is that it parses by this grammar (`Parses`).

* `lex`: a text is cut into pieces, which are tokens, comments and the characters between them.
* `Selection.Tokens` and the like: the tokens of a part of a document. The syntax tree leaves out
  the aliases, the types, the texts of the literals and the directives of a definition, so these
  may be any.

Results:
1. `lex_spec`: the pieces are the text, and no name and no number has a bracket in it.
2. `dollar_mem_lex`: a `$` before the first quote and the first `#` is a token.
-/

namespace Erascope.Graphql

/-! ## 1. Pieces of a text -/

def isLineTerminator (c : Char) : Bool := c = '\n' || c = '\r'

/-- The characters between tokens: white space, commas and the byte order mark. -/
def isIgnored (c : Char) : Bool :=
  c = ' ' || c = '\t' || c = ',' || c = '\uFEFF' || isLineTerminator c

def punctuators : List Char :=
  ['!', '$', '&', '(', ')', ':', '=', '@', '[', ']', '{', '|', '}']

def isNameStart (c : Char) : Bool := c.isAlpha || c = '_'

def isNameContinue (c : Char) : Bool := c.isAlphanum || c = '_'

/-- A piece of a text. A comment has its `#` and a string its quotes. -/
inductive Piece
  | ignored (c : Char)
  | comment (text : List Char)
  | punctuator (c : Char)
  | spread
  | name (text : List Char)
  | number (text : List Char)
  | string (text : List Char)
deriving DecidableEq

def Piece.text : Piece → List Char
  | .ignored c => [c]
  | .comment text => text
  | .punctuator c => [c]
  | .spread => ['.', '.', '.']
  | .name text => text
  | .number text => text
  | .string text => text

def Piece.isToken : Piece → Bool
  | .ignored _ => false
  | .comment _ => false
  | _ => true

/-- The pieces whose characters may be any. -/
def Piece.isQuoted : Piece → Bool
  | .comment _ => true
  | .string _ => true
  | _ => false

/-- Whether a number goes on with `c` after `last`; a sign follows only the `e` of an exponent. -/
def continuesNumber (last c : Char) : Bool :=
  isNameContinue c || c = '.' || ((c = '+' || c = '-') && (last = 'e' || last = 'E'))

/-- The rest of a number, and the text behind it. -/
def takeNumber : Char → List Char → List Char × List Char
  | _, [] => ([], [])
  | last, c :: cs =>
    if continuesNumber last c then (c :: (takeNumber c cs).1, (takeNumber c cs).2)
    else ([], c :: cs)

/-- The rest of a string with its closing quote, and the text behind it. -/
def takeString : List Char → Option (List Char × List Char)
  | [] => none
  | '"' :: cs => some (['"'], cs)
  | '\\' :: c :: cs => (takeString cs).map fun r => ('\\' :: c :: r.1, r.2)
  | c :: cs =>
    if isLineTerminator c then none else (takeString cs).map fun r => (c :: r.1, r.2)

/-- The rest of a block string with its closing quotes, and the text behind it. -/
def takeBlock : List Char → Option (List Char × List Char)
  | [] => none
  | '"' :: '"' :: '"' :: cs => some (['"', '"', '"'], cs)
  | '\\' :: '"' :: '"' :: '"' :: cs =>
    (takeBlock cs).map fun r => ('\\' :: '"' :: '"' :: '"' :: r.1, r.2)
  | c :: cs => (takeBlock cs).map fun r => (c :: r.1, r.2)

/-- A string of either kind after its first quote. -/
def takeQuoted : List Char → Option (List Char × List Char)
  | '"' :: '"' :: cs => (takeBlock cs).map fun r => ('"' :: '"' :: r.1, r.2)
  | cs => takeString cs

/-- The first piece of a text that starts with `c`, and the text behind it. -/
def nextPiece (c : Char) (cs : List Char) : Option (Piece × List Char) :=
  if isIgnored c then some (.ignored c, cs)
  else if c = '#' then
    some (.comment (c :: cs.takeWhile fun d => !isLineTerminator d),
      cs.dropWhile fun d => !isLineTerminator d)
  else if c ∈ punctuators then some (.punctuator c, cs)
  else if c = '.' then if ['.', '.'] <+: cs then some (.spread, cs.drop 2) else none
  else if isNameStart c then
    some (.name (c :: cs.takeWhile isNameContinue), cs.dropWhile isNameContinue)
  else if c.isDigit || c = '-' then some (.number (c :: (takeNumber c cs).1), (takeNumber c cs).2)
  else if c = '"' then (takeQuoted cs).map fun r => (.string (c :: r.1), r.2)
  else none

/-- The pieces of a text, at most `fuel` of them. -/
def lexFrom : ℕ → List Char → Option (List Piece)
  | _, [] => some []
  | 0, _ :: _ => none
  | fuel + 1, c :: cs =>
    (nextPiece c cs).bind fun r => (lexFrom fuel r.2).map fun pieces => r.1 :: pieces

/-- The pieces of a text. No piece is empty, so there are no more of them than characters. -/
def lex (text : List Char) : Option (List Piece) := lexFrom text.length text

/-! ## 2. Tokens of a document -/

/-- A sequence of things. -/
def Many {α : Type} (r : α → List Piece → Prop) : List α → List Piece → Prop
  | [], ts => ts = []
  | x :: xs, ts => ∃ us vs, r x us ∧ Many r xs vs ∧ ts = us ++ vs

/-- Something between an opening and a closing mark. -/
def enclosed (opening : Char) (ts : List Piece) (closing : Char) : List Piece :=
  .punctuator opening :: (ts ++ [.punctuator closing])

/-- Numbers, strings and the names `true`, `null` and the like. -/
def Piece.isLiteral : Piece → Bool
  | .name _ => true
  | .number _ => true
  | .string _ => true
  | _ => false

mutual

/-- The tokens of a value. -/
def Value.Tokens : Value → List Piece → Prop
  | .var name, ts => ts = [.punctuator '$', .name name.toList]
  | .literal _, ts => ∃ t, t.isLiteral ∧ ts = [t]
  | .list values, ts => ∃ us, Value.TokensOfList values us ∧ ts = enclosed '[' us ']'
  | .object fields, ts => ∃ us, Value.TokensOfFields fields us ∧ ts = enclosed '{' us '}'

def Value.TokensOfList : List Value → List Piece → Prop
  | [], ts => ts = []
  | v :: vs, ts => ∃ us us', v.Tokens us ∧ Value.TokensOfList vs us' ∧ ts = us ++ us'

def Value.TokensOfFields : List (String × Value) → List Piece → Prop
  | [], ts => ts = []
  | (name, v) :: fs, ts =>
    ∃ us us', v.Tokens us ∧ Value.TokensOfFields fs us' ∧
      ts = .name name.toList :: .punctuator ':' :: (us ++ us')

end

def Argument.Tokens (a : Argument) (ts : List Piece) : Prop :=
  ∃ us, a.value.Tokens us ∧ ts = .name a.name.toList :: .punctuator ':' :: us

/-- Things between parentheses; without any there are no parentheses. -/
def Parenthesized {α : Type} (r : α → List Piece → Prop) (xs : List α) (ts : List Piece) : Prop :=
  (xs = [] ∧ ts = []) ∨ ∃ us, Many r xs us ∧ ts = enclosed '(' us ')'

def Directive.Tokens (d : Directive) (ts : List Piece) : Prop :=
  ∃ us, Parenthesized Argument.Tokens d.arguments us ∧
    ts = .punctuator '@' :: .name d.name.toList :: us

/-- The tokens of a type. -/
inductive TypeTokens : List Piece → Prop
  | named (name : List Char) : TypeTokens [.name name]
  | list {ts : List Piece} (h : TypeTokens ts) : TypeTokens (enclosed '[' ts ']')
  | nonNull {ts : List Piece} (h : TypeTokens ts) : TypeTokens (ts ++ [.punctuator '!'])

/-- The default value of a variable. -/
def DefaultTokens (default : Option Value) (ts : List Piece) : Prop :=
  match default with
  | none => ts = []
  | some v => ∃ us, v.Tokens us ∧ ts = .punctuator '=' :: us

def VariableDefinition.Tokens (v : VariableDefinition) (ts : List Piece) : Prop :=
  ∃ type us directives ds, TypeTokens type ∧ DefaultTokens v.defaultValue us ∧
    Many Directive.Tokens directives ds ∧
      ts = .punctuator '$' :: .name v.name.toList :: .punctuator ':' :: (type ++ us ++ ds)

/-- The alias of a field, with its colon. -/
def AliasTokens (ts : List Piece) : Prop :=
  ts = [] ∨ ∃ aliased, ts = [.name aliased, .punctuator ':']

/-- The type condition of a fragment. -/
def TypeConditionTokens (ts : List Piece) : Prop :=
  ∃ type, ts = [.name "on".toList, .name type]

mutual

/-- The tokens of a selection. -/
def Selection.Tokens : Selection → List Piece → Prop
  | .field name arguments directives selectionSet, ts =>
    ∃ aliased us ds set, AliasTokens aliased ∧ Parenthesized Argument.Tokens arguments us ∧
      Many Directive.Tokens directives ds ∧
      ((selectionSet = [] ∧ set = []) ∨
        (selectionSet ≠ [] ∧
          ∃ inner, Selection.TokensOfList selectionSet inner ∧ set = enclosed '{' inner '}')) ∧
      ts = aliased ++ .name name.toList :: (us ++ ds ++ set)
  | .fragmentSpread name directives, ts =>
    ∃ ds, name ≠ "on" ∧ Many Directive.Tokens directives ds ∧
      ts = .spread :: .name name.toList :: ds
  | .inlineFragment directives selectionSet, ts =>
    ∃ condition ds inner, (condition = [] ∨ TypeConditionTokens condition) ∧
      Many Directive.Tokens directives ds ∧ selectionSet ≠ [] ∧
      Selection.TokensOfList selectionSet inner ∧
      ts = .spread :: (condition ++ ds ++ enclosed '{' inner '}')

def Selection.TokensOfList : List Selection → List Piece → Prop
  | [], ts => ts = []
  | s :: ss, ts => ∃ us us', s.Tokens us ∧ Selection.TokensOfList ss us' ∧ ts = us ++ us'

end

/-- The selection set of a definition. -/
def SelectionSetTokens (selectionSet : List Selection) (ts : List Piece) : Prop :=
  selectionSet ≠ [] ∧
    ∃ inner, Selection.TokensOfList selectionSet inner ∧ ts = enclosed '{' inner '}'

/-- What stands before the selection set of a query: nothing in the short form. -/
def QueryHeadTokens (variableDefinitions : List VariableDefinition) (ts : List Piece) : Prop :=
  (variableDefinitions = [] ∧ ts = []) ∨
    ∃ name us directives ds, (name = [] ∨ ∃ text, name = [Piece.name text]) ∧
      Parenthesized VariableDefinition.Tokens variableDefinitions us ∧
      Many Directive.Tokens directives ds ∧
      ts = .name "query".toList :: (name ++ us ++ ds)

/-- The tokens of a definition; for a definition that is no query and no fragment, any. -/
def Definition.Tokens : Definition → List Piece → Prop
  | .query variableDefinitions selectionSet, ts =>
    ∃ head set, QueryHeadTokens variableDefinitions head ∧ SelectionSetTokens selectionSet set ∧
      ts = head ++ set
  | .fragment name selectionSet, ts =>
    ∃ condition directives ds set, name ≠ "on" ∧ TypeConditionTokens condition ∧
      Many Directive.Tokens directives ds ∧ SelectionSetTokens selectionSet set ∧
      ts = .name "fragment".toList :: .name name.toList :: (condition ++ ds ++ set)
  | .other, _ => True

/-- The text is a document, by the grammar. -/
def Parses (text : String) (doc : Document) : Prop :=
  ∃ pieces, lex text.toList = some pieces ∧
    Many Definition.Tokens doc.definitions (pieces.filter Piece.isToken)

/-! ## 3. The pieces are the text -/

namespace GrammarLemmas

theorem takeNumber_append (last : Char) (cs : List Char) :
    (takeNumber last cs).1 ++ (takeNumber last cs).2 = cs := by
  induction cs generalizing last with
  | nil => rfl
  | cons c cs ih =>
    unfold takeNumber
    split
    · rw [List.cons_append, ih]
    · rfl

theorem takeString_append {cs : List Char} {r : List Char × List Char}
    (h : takeString cs = some r) : r.1 ++ r.2 = cs := by
  induction cs using takeString.induct generalizing r with
  | case1 => cases h
  | case2 cs =>
    obtain rfl := Option.some.inj h
    rfl
  | case3 c cs ih =>
    rw [takeString] at h
    obtain ⟨r', hr', rfl⟩ := Option.map_eq_some_iff.mp h
    rw [List.cons_append, List.cons_append, ih hr']
  | case4 c cs hquote hescape hline =>
    rw [takeString.eq_4 c cs hquote hescape, if_pos hline] at h
    cases h
  | case5 c cs hquote hescape hline ih =>
    rw [takeString.eq_4 c cs hquote hescape, if_neg hline] at h
    obtain ⟨r', hr', rfl⟩ := Option.map_eq_some_iff.mp h
    rw [List.cons_append, ih hr']

theorem takeBlock_append {cs : List Char} {r : List Char × List Char}
    (h : takeBlock cs = some r) : r.1 ++ r.2 = cs := by
  induction cs using takeBlock.induct generalizing r with
  | case1 => cases h
  | case2 cs =>
    obtain rfl := Option.some.inj h
    rfl
  | case3 cs ih =>
    rw [takeBlock] at h
    obtain ⟨r', hr', rfl⟩ := Option.map_eq_some_iff.mp h
    simp only [List.cons_append, ih hr']
  | case4 c cs hquote hescape ih =>
    rw [takeBlock.eq_4 c cs hquote hescape] at h
    obtain ⟨r', hr', rfl⟩ := Option.map_eq_some_iff.mp h
    rw [List.cons_append, ih hr']

theorem takeQuoted_append {cs : List Char} {r : List Char × List Char}
    (h : takeQuoted cs = some r) : r.1 ++ r.2 = cs := by
  unfold takeQuoted at h
  split at h
  · obtain ⟨r', hr', rfl⟩ := Option.map_eq_some_iff.mp h
    simp only [List.cons_append, takeBlock_append hr']
  · exact takeString_append h

theorem isNameContinue_not_mem {c : Char} (h : isNameContinue c) : c ∉ punctuators := by
  intro hc
  fin_cases hc <;> exact absurd h (by decide)

theorem continuesNumber_not_mem {last c : Char} (h : continuesNumber last c) :
    c ∉ punctuators := by
  intro hc
  have hsign : isNameContinue c || c = '.' || c = '+' || c = '-' := by
    simp only [continuesNumber, Bool.or_eq_true, Bool.and_eq_true] at h ⊢
    tauto
  fin_cases hc <;> exact absurd hsign (by decide)

theorem takeNumber_not_mem (last : Char) (cs : List Char) :
    ∀ c ∈ (takeNumber last cs).1, c ∉ punctuators := by
  induction cs generalizing last with
  | nil => simp [takeNumber]
  | cons c cs ih =>
    unfold takeNumber
    split
    case isTrue h => exact List.forall_mem_cons.mpr ⟨continuesNumber_not_mem h, ih c⟩
    case isFalse h => simp

/-- What `nextPiece` cuts off. -/
structure Cut (c : Char) (cs : List Char) (r : Piece × List Char) : Prop where
  text : r.1.text ++ r.2 = c :: cs
  kind : r.1 = .punctuator c ∨ (r.1.isQuoted ∧ (c = '#' ∨ c = '"')) ∨
    (r.1.isQuoted = false ∧ ∀ d ∈ r.1.text, d ∉ punctuators)

theorem nextPiece_cut {c : Char} {cs : List Char} {r : Piece × List Char}
    (h : nextPiece c cs = some r) : Cut c cs r := by
  unfold nextPiece at h
  split at h
  case isTrue hignored =>
    obtain rfl := Option.some.inj h
    refine ⟨rfl, Or.inr (Or.inr ⟨rfl, List.forall_mem_singleton.mpr fun hc => ?_⟩)⟩
    fin_cases hc <;> exact absurd hignored (by decide)
  case isFalse =>
  split at h
  case isTrue hcomment =>
    obtain rfl := Option.some.inj h
    refine ⟨?_, Or.inr (Or.inl ⟨rfl, Or.inl hcomment⟩)⟩
    rw [Piece.text, List.cons_append, List.takeWhile_append_dropWhile]
  case isFalse =>
  split at h
  case isTrue =>
    obtain rfl := Option.some.inj h
    exact ⟨rfl, Or.inl rfl⟩
  case isFalse =>
  split at h
  case isTrue hdot =>
    split at h
    case isFalse => cases h
    case isTrue hspread =>
      obtain ⟨ds, rfl⟩ := hspread
      obtain rfl := Option.some.inj h
      subst hdot
      have hdot : '.' ∉ punctuators := by decide
      have hplain : ∀ d ∈ List.replicate 3 '.', d ∉ punctuators := fun d hd =>
        List.eq_of_mem_replicate hd ▸ hdot
      exact ⟨rfl, Or.inr (Or.inr ⟨rfl, hplain⟩)⟩
  case isFalse =>
  split at h
  case isTrue hname =>
    obtain rfl := Option.some.inj h
    have hstart : isNameContinue c := by
      simp only [isNameStart, isNameContinue, Char.isAlphanum, Bool.or_eq_true] at hname ⊢
      tauto
    refine ⟨?_, Or.inr (Or.inr ⟨rfl, ?_⟩)⟩
    · rw [Piece.text, List.cons_append, List.takeWhile_append_dropWhile]
    · exact List.forall_mem_cons.mpr ⟨isNameContinue_not_mem hstart,
        fun d hd => isNameContinue_not_mem (List.mem_takeWhile_imp hd)⟩
  case isFalse =>
  split at h
  case isTrue hnumber =>
    obtain rfl := Option.some.inj h
    refine ⟨?_, Or.inr (Or.inr ⟨rfl, ?_⟩)⟩
    · rw [Piece.text, List.cons_append, takeNumber_append]
    · refine List.forall_mem_cons.mpr ⟨fun hc => ?_, takeNumber_not_mem c cs⟩
      fin_cases hc <;> exact absurd hnumber (by decide)
  case isFalse =>
  split at h
  case isTrue hstring =>
    obtain ⟨r', hr', rfl⟩ := Option.map_eq_some_iff.mp h
    refine ⟨?_, Or.inr (Or.inl ⟨rfl, Or.inr hstring⟩)⟩
    rw [Piece.text, List.cons_append, takeQuoted_append hr']
  case isFalse => cases h

/-- What is true of the end of a text and of a text with one more piece is true of a text. -/
theorem lexFrom_induction {motive : List Char → List Piece → Prop} (hnil : motive [] [])
    (hcons : ∀ c cs r pieces, Cut c cs r → motive r.2 pieces → motive (c :: cs) (r.1 :: pieces))
    {fuel : ℕ} {text : List Char} {pieces : List Piece} (h : lexFrom fuel text = some pieces) :
    motive text pieces := by
  induction fuel, text using lexFrom.induct generalizing pieces with
  | case1 fuel =>
    obtain rfl : [] = pieces := by simpa [lexFrom] using h
    exact hnil
  | case2 c cs => cases h
  | case3 fuel c cs ih =>
    rw [lexFrom] at h
    obtain ⟨r, hr, hrest⟩ := Option.bind_eq_some_iff.mp h
    obtain ⟨pieces', hpieces, rfl⟩ := Option.map_eq_some_iff.mp hrest
    exact hcons c cs r pieces' (nextPiece_cut hr) (ih r hpieces)

end GrammarLemmas

open GrammarLemmas

/-- The pieces are the text, and no name and no number has a bracket in it. -/
theorem lex_spec {text : List Char} {pieces : List Piece} (h : lex text = some pieces) :
    pieces.flatMap Piece.text = text ∧ ∀ p ∈ pieces, (∃ c, p = .punctuator c) ∨ p.isQuoted ∨
      ∀ d ∈ p.text, d ∉ punctuators := by
  refine lexFrom_induction (motive := fun text pieces => pieces.flatMap Piece.text = text ∧
    ∀ p ∈ pieces, (∃ c, p = .punctuator c) ∨ p.isQuoted ∨ ∀ d ∈ p.text, d ∉ punctuators)
    ⟨rfl, by simp⟩ ?_ h
  rintro c cs r pieces hcut ⟨htext, hkind⟩
  refine ⟨?_, List.forall_mem_cons.mpr ⟨?_, hkind⟩⟩
  · rw [List.flatMap_cons, htext, hcut.text]
  · rcases hcut.kind with h | h | h
    · exact Or.inl ⟨c, h⟩
    · exact Or.inr (Or.inl h.1)
    · exact Or.inr (Or.inr h.2)

/-- A `$` before the first quote and the first `#` is a token. -/
theorem dollar_mem_lex {text : List Char} {pieces : List Piece} (h : lex text = some pieces)
    (hdollar : '$' ∈ text.takeWhile fun c => c ≠ '"' ∧ c ≠ '#') :
    .punctuator '$' ∈ pieces := by
  revert hdollar
  refine lexFrom_induction (motive := fun text pieces =>
    '$' ∈ text.takeWhile (fun c => c ≠ '"' ∧ c ≠ '#') → .punctuator '$' ∈ pieces) (by simp) ?_ h
  intro c cs r pieces hcut ih hdollar
  rcases hcut.kind with hr | ⟨-, hc⟩ | ⟨-, hplain⟩
  · by_cases hc : c = '$'
    · rw [hr, hc]
      exact List.mem_cons_self
    · have hrest : r.2 = cs := by
        have htext := hcut.text
        rw [hr] at htext
        exact (List.cons.inj htext).2
      rw [List.takeWhile_cons] at hdollar
      split at hdollar
      · rcases List.mem_cons.mp hdollar with hd | hd
        · exact absurd hd.symm hc
        · exact List.mem_cons_of_mem _ (ih (hrest ▸ hd))
      · cases hdollar
  · have hstop : ¬ (c ≠ '"' ∧ c ≠ '#') := by tauto
    rw [List.takeWhile_cons, if_neg (by simpa using hstop)] at hdollar
    cases hdollar
  · rw [← hcut.text, List.takeWhile_append] at hdollar
    split at hdollar
    · rcases List.mem_append.mp hdollar with hd | hd
      · exact absurd (by decide) (hplain _ hd)
      · exact List.mem_cons_of_mem _ (ih hd)
    · exact absurd (by decide) (hplain _ (List.takeWhile_subset _ hdollar))

end Erascope.Graphql
