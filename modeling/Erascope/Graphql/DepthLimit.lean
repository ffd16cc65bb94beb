import Mathlib.Tactic
import Erascope.Graphql.Bypass
import Erascope.Graphql.Grammar

/-!
# The limit on the depth

The loop of `handleGraphQLQuery` counts the braces of the text outside parentheses. It does not
know comments and strings, so a bracket in one of them is counted like any other: after a `(` in a
comment no brace is counted, and a `}` in a comment lowers the number of open brackets. A query
can then be nested deeper than the limit (`depth_limit_bypassed`).

* `Harmless`: the loop goes on after a comment or a string as if it had not been there, or with
  more open brackets.
* `Clean`: all comments and strings of a text are harmless where they stand.

Results:
1. `checkBrackets_brackets`: on a clean text the loop passes only if it passes on the brackets of
   the tokens.
2. `harmless_iff`: behind a text that is not harmless the limit does not hold.
3. `Definition.nesting_le`: the brackets of the tokens show the nesting of the selection sets.
4. `depth_limited_of_clean`: the limit holds for a clean text.
-/

namespace Erascope.Graphql

/-! ## 1. What the loop reads -/

/-- What `c` adds to `openBrackets`, where `isWhere` is the flag after `c`. -/
def bracketChange (c : Char) (isWhere : Bool) : ℤ :=
  if c = '{' && !isWhere then 1 else if c = '}' && !isWhere then -1 else 0

/-- `isWhere` after some characters -/
def isWhereAfterText : List Char → Bool → Bool
  | [], isWhere => isWhere
  | c :: cs, isWhere => isWhereAfterText cs (isWhereAfter c isWhere)

/-- What some characters add to `openBrackets`. -/
def bracketsChange : List Char → Bool → ℤ
  | [], _ => 0
  | c :: cs, isWhere =>
    bracketChange c (isWhereAfter c isWhere) + bracketsChange cs (isWhereAfter c isWhere)

/-- The loop goes on after the characters as if they had not been there, or with more open
brackets. -/
def Harmless (isWhere : Bool) (text : List Char) : Prop :=
  isWhereAfterText text isWhere = isWhere ∧ 0 ≤ bracketsChange text isWhere

instance (isWhere : Bool) (text : List Char) : Decidable (Harmless isWhere text) :=
  inferInstanceAs (Decidable (_ ∧ _))

/-- The bracket of a token. -/
def Piece.brackets : Piece → List Char
  | .punctuator c => [c]
  | _ => []

def brackets (ts : List Piece) : List Char := ts.flatMap Piece.brackets

/-- The comments and strings among the pieces are harmless where they stand: `isWhere` is the
flag that the tokens before them leave. -/
def CleanFrom : Bool → List Piece → Prop
  | _, [] => True
  | isWhere, p :: ps =>
    (p.isQuoted → Harmless isWhere p.text) ∧ CleanFrom (isWhereAfterText p.brackets isWhere) ps

/-- The comments and strings of a text are harmless where they stand. -/
def Clean (text : String) : Prop := ∀ pieces ∈ lex text.toList, CleanFrom false pieces

instance decidableCleanFrom : ∀ isWhere ps, Decidable (CleanFrom isWhere ps)
  | _, [] => isTrue trivial
  | isWhere, p :: ps =>
    have := decidableCleanFrom (isWhereAfterText p.brackets isWhere) ps
    inferInstanceAs (Decidable (_ ∧ _))

/-- How deep the selection sets of a definition are inside each other. -/
def Definition.nesting (d : Definition) : ℕ := 1 + Selection.nestingOfList d.selectionSet

/-! ## 2. The loop on the pieces of a text -/

namespace DepthLimitLemmas

theorem checkBrackets_cons {limit n : ℤ} {c : Char} {cs : List Char} {b : Bool} :
    checkBrackets limit (c :: cs) n b = true ↔
      n + bracketChange c (isWhereAfter c b) ≤ limit ∧
        checkBrackets limit cs (n + bracketChange c (isWhereAfter c b)) (isWhereAfter c b) =
          true := by
  have hchange : (if c = '{' && !isWhereAfter c b then n + 1
      else if c = '}' && !isWhereAfter c b then n - 1 else n) =
        n + bracketChange c (isWhereAfter c b) := by
    unfold bracketChange
    split
    · rfl
    · split
      · rfl
      · exact (add_zero n).symm
  rw [checkBrackets, hchange]
  split
  case isTrue h => simp [not_le.mpr h]
  case isFalse h => simp [not_lt.mp h]

theorem checkBrackets_append {limit n : ℤ} {cs ds : List Char} {b : Bool} :
    checkBrackets limit (cs ++ ds) n b = true ↔ checkBrackets limit cs n b = true ∧
      checkBrackets limit ds (n + bracketsChange cs b) (isWhereAfterText cs b) = true := by
  induction cs generalizing n b with
  | nil => simp [bracketsChange, isWhereAfterText, checkBrackets]
  | cons c cs ih =>
    rw [List.cons_append, checkBrackets_cons, checkBrackets_cons, ih, bracketsChange,
      isWhereAfterText, add_assoc, and_assoc]

/-- With fewer open brackets the loop passes as well. -/
theorem checkBrackets_mono {limit m n : ℤ} {cs : List Char} {b : Bool} (hmn : m ≤ n)
    (h : checkBrackets limit cs n b = true) : checkBrackets limit cs m b = true := by
  induction cs generalizing m n b with
  | nil => rfl
  | cons c cs ih =>
    obtain ⟨hle, hrest⟩ := checkBrackets_cons.mp h
    have hstep := add_le_add_left hmn (bracketChange c (isWhereAfter c b))
    exact checkBrackets_cons.mpr ⟨hstep.trans hle, ih hstep hrest⟩

theorem not_paren {c : Char} (h : c ∉ ['(', ')', '{', '}']) (b : Bool) :
    isWhereAfter c b = b ∧ bracketChange c b = 0 := by
  simp only [List.mem_cons, List.not_mem_nil, or_false, not_or] at h
  obtain ⟨hopen, hclose, hbrace, hunbrace⟩ := h
  simp [isWhereAfter, bracketChange, hopen, hclose, hbrace, hunbrace]

/-- Names, numbers and the like are not seen by the loop. -/
theorem harmless_of_plain {text : List Char} (h : ∀ c ∈ text, c ∉ punctuators) (b : Bool) :
    Harmless b text := by
  induction text with
  | nil => exact ⟨rfl, le_rfl⟩
  | cons c cs ih =>
    obtain ⟨hc, hcs⟩ := List.forall_mem_cons.mp h
    have hsub : ['(', ')', '{', '}'] ⊆ punctuators := by decide
    obtain ⟨hflag, hchange⟩ := not_paren (fun hmem => hc (hsub hmem)) b
    unfold Harmless
    rw [isWhereAfterText, bracketsChange, hflag, hchange, zero_add]
    exact ih hcs

theorem brackets_append (ts us : List Piece) : brackets (ts ++ us) = brackets ts ++ brackets us :=
  List.flatMap_append

/-- Comments and the characters between tokens have no bracket of a token. -/
theorem brackets_filter (ps : List Piece) : brackets (ps.filter Piece.isToken) = brackets ps := by
  induction ps with
  | nil => rfl
  | cons p ps ih =>
    have hcons : brackets (p :: ps) = p.brackets ++ brackets ps := List.flatMap_cons
    rw [hcons, List.filter_cons]
    split
    case isTrue => rw [← ih, brackets, List.flatMap_cons, ← brackets]
    case isFalse h =>
      rw [ih]
      cases p <;> first | rfl | exact absurd rfl h

end DepthLimitLemmas

open DepthLimitLemmas

/-- On clean pieces the loop passes only if it passes on the brackets of the tokens. -/
theorem checkBrackets_brackets {limit m n : ℤ} {b : Bool} {ps : List Piece}
    (hkind : ∀ p ∈ ps, (∃ c, p = .punctuator c) ∨ p.isQuoted ∨ ∀ d ∈ p.text, d ∉ punctuators)
    (hclean : CleanFrom b ps) (hmn : m ≤ n)
    (h : checkBrackets limit (ps.flatMap Piece.text) n b = true) :
    checkBrackets limit (brackets ps) m b = true := by
  induction ps generalizing m n b with
  | nil => rfl
  | cons p ps ih =>
    obtain ⟨hp, hps⟩ := List.forall_mem_cons.mp hkind
    rw [List.flatMap_cons] at h
    by_cases hpunct : ∃ c, p = .punctuator c
    · obtain ⟨c, rfl⟩ := hpunct
      obtain ⟨hle, hrest⟩ := checkBrackets_cons.mp h
      have hstep := add_le_add_left hmn (bracketChange c (isWhereAfter c b))
      exact checkBrackets_cons.mpr ⟨hstep.trans hle, ih hps hclean.2 hstep hrest⟩
    · have hnone : p.brackets = [] := by
        cases p with
        | punctuator c => exact absurd ⟨c, rfl⟩ hpunct
        | _ => rfl
      have hharmless : Harmless b p.text := by
        rcases hp with hp | hp | hp
        · exact absurd hp hpunct
        · exact hclean.1 hp
        · exact harmless_of_plain hp b
      have hrest := (checkBrackets_append.mp h).2
      rw [hharmless.1] at hrest
      have hps' : CleanFrom b ps := by
        have := hclean.2
        rwa [hnone] at this
      rw [brackets, List.flatMap_cons, hnone, List.nil_append, ← brackets]
      exact ih hps hps' (by have := hharmless.2; omega) hrest

/-! ## 3. Texts that are not harmless -/

/-- The braces of selection sets inside each other. -/
def nestedBraces (depth : ℕ) : List Char := List.replicate depth '{' ++ List.replicate depth '}'

namespace DepthLimitLemmas

theorem bracketChange_le (c : Char) (b : Bool) : bracketChange c b ≤ 1 := by
  unfold bracketChange
  split
  · exact le_rfl
  · split
    · decide
    · decide

theorem checkBrackets_of_length {limit n : ℤ} {cs : List Char} (b : Bool)
    (h : n + cs.length ≤ limit) : checkBrackets limit cs n b = true := by
  induction cs generalizing n b with
  | nil => rfl
  | cons c cs ih =>
    have hone := bracketChange_le c (isWhereAfter c b)
    rw [List.length_cons] at h
    push_cast at h
    exact checkBrackets_cons.mpr ⟨by omega, ih _ (by omega)⟩

theorem bracketsChange_le (cs : List Char) (b : Bool) : bracketsChange cs b ≤ cs.length := by
  induction cs generalizing b with
  | nil => exact le_rfl
  | cons c cs ih =>
    have hone := bracketChange_le c (isWhereAfter c b)
    have hrest := ih (isWhereAfter c b)
    rw [bracketsChange, List.length_cons]
    push_cast
    omega

/-- Inside parentheses no brace is counted. -/
theorem checkBrackets_where {limit n : ℤ} {cs : List Char} (hcs : ∀ c ∈ cs, c = '{' ∨ c = '}')
    (hn : n ≤ limit) : checkBrackets limit cs n true = true := by
  induction cs with
  | nil => rfl
  | cons c cs ih =>
    obtain ⟨hc, hrest⟩ := List.forall_mem_cons.mp hcs
    have hflag : isWhereAfter c true = true := by
      rcases hc with rfl | rfl <;> rfl
    have hchange : bracketChange c true = 0 := by simp [bracketChange]
    rw [checkBrackets_cons, hflag, hchange, add_zero]
    exact ⟨hn, ih hrest⟩

theorem checkBrackets_closing {limit n : ℤ} (hn : n ≤ limit) (depth : ℕ) :
    checkBrackets limit (List.replicate depth '}') n false = true := by
  induction depth generalizing n with
  | zero => rfl
  | succ depth ih =>
    have hchange : bracketChange '}' (isWhereAfter '}' false) = -1 := by decide
    rw [List.replicate_succ, checkBrackets_cons, hchange]
    exact ⟨by omega, ih (by omega)⟩

theorem checkBrackets_opening {limit n : ℤ} (hn : n ≤ limit) (depth : ℕ) (ds : List Char) :
    checkBrackets limit (List.replicate depth '{' ++ ds) n false = true ↔
      n + depth ≤ limit ∧ checkBrackets limit ds (n + depth) false = true := by
  induction depth generalizing n with
  | zero => simp [hn]
  | succ depth ih =>
    have hchange : bracketChange '{' (isWhereAfter '{' false) = 1 := by decide
    have hflag : isWhereAfter '{' false = false := by decide
    have hcast : n + ((depth + 1 : ℕ) : ℤ) = n + 1 + depth := by
      push_cast
      ring
    rw [List.replicate_succ, List.cons_append, checkBrackets_cons, hchange, hflag, hcast]
    constructor
    · rintro ⟨hle, hrest⟩
      exact (ih hle).mp hrest
    · rintro ⟨hle, hrest⟩
      have hone : n + 1 ≤ limit := by omega
      exact ⟨hone, (ih hone).mpr ⟨hle, hrest⟩⟩

theorem checkBrackets_nested {limit n : ℤ} (hn : n ≤ limit) (depth : ℕ) :
    checkBrackets limit (nestedBraces depth) n false = true ↔ n + depth ≤ limit := by
  rw [nestedBraces, checkBrackets_opening hn]
  exact ⟨And.left, fun h => ⟨h, checkBrackets_closing h depth⟩⟩

end DepthLimitLemmas

/-- A text before the selection sets is harmless exactly when it hides no depth: behind a text that
is not harmless some selection sets are nested deeper than the limit, and the loop passes. -/
theorem harmless_iff (text : List Char) :
    Harmless false text ↔ ∀ limit depth : ℕ,
      checkBrackets limit (text ++ nestedBraces depth) 0 false = true → depth ≤ limit := by
  constructor
  · rintro ⟨hflag, hchange⟩ limit depth h
    have hrest := (checkBrackets_append.mp h).2
    rw [hflag, zero_add] at hrest
    have hzero := checkBrackets_mono hchange hrest
    have hle := (checkBrackets_nested (Int.natCast_nonneg limit) depth).mp hzero
    omega
  · intro h
    by_contra hharm
    -- the text alone passes any limit that is at least its length
    have hdeep := h text.length (text.length + 1)
    have htext : checkBrackets text.length text 0 false = true :=
      checkBrackets_of_length false (zero_add _).le
    have hle := bracketsChange_le text false
    refine absurd (hdeep (checkBrackets_append.mpr ⟨htext, ?_⟩)) (by omega)
    rw [zero_add]
    cases hflag : isWhereAfterText text false with
    | true =>
      refine checkBrackets_where (fun c hc => ?_) hle
      rcases List.mem_append.mp hc with hc | hc
      · exact Or.inl (List.eq_of_mem_replicate hc)
      · exact Or.inr (List.eq_of_mem_replicate hc)
    | false =>
      have hneg : ¬ 0 ≤ bracketsChange text false := fun hchange => hharm ⟨hflag, hchange⟩
      refine (checkBrackets_nested hle _).mpr ?_
      push_cast
      omega

/-! ## 4. The loop on the tokens of a document -/

/-- The loop goes on after the tokens as it was before them. -/
structure Level (ts : List Piece) : Prop where
  passes : ∀ {limit n : ℤ} {b : Bool} {rest : List Char},
    checkBrackets limit (brackets ts ++ rest) n b = true → checkBrackets limit rest n b = true

/-- The loop goes on after the tokens with as many open brackets as before them; outside
parentheses it stays outside. -/
structure Balanced (ts : List Piece) : Prop where
  passes : ∀ {limit n : ℤ} {b : Bool} {rest : List Char},
    checkBrackets limit (brackets ts ++ rest) n b = true →
      ∃ b', checkBrackets limit rest n b' = true ∧ (b = false → b' = false)

theorem brackets_cons (t : Piece) (ts : List Piece) :
    brackets (t :: ts) = t.brackets ++ brackets ts :=
  List.flatMap_cons

theorem brackets_enclosed (opening closing : Char) (ts : List Piece) :
    brackets (enclosed opening ts closing) = opening :: (brackets ts ++ [closing]) := by
  rw [enclosed, brackets_cons, brackets_append]
  rfl

theorem level_nil : Level [] := ⟨id⟩

theorem Level.append {ts us : List Piece} (ht : Level ts) (hu : Level us) : Level (ts ++ us) := by
  refine ⟨fun h => ?_⟩
  rw [brackets_append, List.append_assoc] at h
  exact hu.passes (ht.passes h)

/-- A token that is no parenthesis and no brace. -/
theorem level_token {t : Piece} (ht : ∀ c ∈ t.brackets, c ∉ ['(', ')', '{', '}']) : Level [t] := by
  refine ⟨fun {limit n b rest} h => ?_⟩
  cases t with
  | punctuator c =>
    obtain ⟨hflag, hchange⟩ := not_paren (ht c (List.mem_singleton_self c)) b
    have hrest := (checkBrackets_cons.mp h).2
    rwa [hflag, hchange, add_zero] at hrest
  | _ => exact h

theorem level_name (text : List Char) : Level [.name text] :=
  level_token fun _ hc => absurd hc List.not_mem_nil

theorem level_spread : Level [.spread] := ⟨fun h => h⟩

theorem level_punctuator {c : Char} (h : c ∉ ['(', ')', '{', '}']) : Level [.punctuator c] :=
  level_token (List.forall_mem_singleton.mpr h)

theorem Level.cons {t : Piece} {ts : List Piece} (ht : Level [t]) (hts : Level ts) :
    Level (t :: ts) :=
  ht.append hts

theorem Level.brackets {opening closing : Char} {ts : List Piece}
    (hopening : opening ∉ ['(', ')', '{', '}']) (hclosing : closing ∉ ['(', ')', '{', '}'])
    (hts : Level ts) : Level (enclosed opening ts closing) :=
  (level_punctuator hopening).cons (hts.append (level_punctuator hclosing))

/-- An object: its braces are both counted, or both not. -/
theorem Level.braces {ts : List Piece} (hts : Level ts) : Level (enclosed '{' ts '}') := by
  refine ⟨fun {limit n b rest} h => ?_⟩
  rw [brackets_enclosed, List.cons_append, List.append_assoc, List.singleton_append] at h
  have hinner := hts.passes (checkBrackets_cons.mp h).2
  have hrest := (checkBrackets_cons.mp hinner).2
  cases b with
  | true => simpa [isWhereAfter, bracketChange] using hrest
  | false => simpa [isWhereAfter, bracketChange] using hrest

theorem Level.balanced {ts : List Piece} (h : Level ts) : Balanced ts :=
  ⟨fun hscan => ⟨_, h.passes hscan, id⟩⟩

theorem Balanced.append {ts us : List Piece} (ht : Balanced ts) (hu : Balanced us) :
    Balanced (ts ++ us) := by
  refine ⟨fun h => ?_⟩
  rw [brackets_append, List.append_assoc] at h
  obtain ⟨b', hus, hb'⟩ := ht.passes h
  obtain ⟨b'', hrest, hb''⟩ := hu.passes hus
  exact ⟨b'', hrest, fun hb => hb'' (hb' hb)⟩

theorem Balanced.cons {t : Piece} {ts : List Piece} (ht : Level [t]) (hts : Balanced ts) :
    Balanced (t :: ts) :=
  Balanced.append ht.balanced hts

/-- After the closing parenthesis the loop is outside, whatever was between. -/
theorem Balanced.parens {ts : List Piece} (hts : Balanced ts) : Balanced (enclosed '(' ts ')') := by
  refine ⟨fun {limit n b rest} h => ?_⟩
  rw [brackets_enclosed, List.cons_append, List.append_assoc, List.singleton_append] at h
  obtain ⟨b', hinner, -⟩ := hts.passes (checkBrackets_cons.mp h).2
  have hrest := (checkBrackets_cons.mp hinner).2
  refine ⟨false, ?_, fun _ => rfl⟩
  simpa [isWhereAfter, bracketChange] using hrest

theorem balanced_many {α : Type} {r : α → List Piece → Prop} (hr : ∀ x ts, r x ts → Balanced ts)
    {xs : List α} {ts : List Piece} (h : Many r xs ts) : Balanced ts := by
  induction xs generalizing ts with
  | nil =>
    obtain rfl := h
    exact level_nil.balanced
  | cons x xs ih =>
    obtain ⟨us, vs, hus, hvs, rfl⟩ := h
    exact (hr x us hus).append (ih hvs)

theorem balanced_parenthesized {α : Type} {r : α → List Piece → Prop}
    (hr : ∀ x ts, r x ts → Balanced ts) {xs : List α} {ts : List Piece}
    (h : Parenthesized r xs ts) : Balanced ts := by
  rcases h with ⟨-, rfl⟩ | ⟨us, hus, rfl⟩
  · exact level_nil.balanced
  · exact (balanced_many hr hus).parens

mutual

theorem level_value (v : Value) {ts : List Piece} (h : v.Tokens ts) : Level ts := by
  cases v with
  | var name =>
    obtain rfl := h
    exact (level_punctuator (by decide)).cons (level_name _)
  | literal number =>
    obtain ⟨t, ht, rfl⟩ := h
    refine level_token fun c hc => ?_
    cases t with
    | punctuator d => cases ht
    | _ => cases hc
  | list values =>
    obtain ⟨us, hus, rfl⟩ := h
    exact (level_values values hus).brackets (by decide) (by decide)
  | object fields =>
    obtain ⟨us, hus, rfl⟩ := h
    exact (level_fields fields hus).braces

theorem level_values (vs : List Value) {ts : List Piece} (h : Value.TokensOfList vs ts) :
    Level ts := by
  cases vs with
  | nil =>
    obtain rfl := h
    exact level_nil
  | cons v vs =>
    obtain ⟨us, us', hus, hus', rfl⟩ := h
    exact (level_value v hus).append (level_values vs hus')

theorem level_fields (fs : List (String × Value)) {ts : List Piece}
    (h : Value.TokensOfFields fs ts) : Level ts := by
  match fs, h with
  | [], h =>
    obtain rfl := h
    exact level_nil
  | (name, v) :: fs, h =>
    obtain ⟨us, us', hus, hus', rfl⟩ := h
    exact (level_name _).cons ((level_punctuator (by decide)).cons
      ((level_value v hus).append (level_fields fs hus')))

end

theorem balanced_argument (a : Argument) (ts : List Piece) (h : a.Tokens ts) : Balanced ts := by
  obtain ⟨us, hus, rfl⟩ := h
  exact ((level_name _).cons ((level_punctuator (by decide)).cons
    (level_value a.value hus))).balanced

theorem balanced_directive (d : Directive) (ts : List Piece) (h : d.Tokens ts) :
    Balanced ts := by
  obtain ⟨us, hus, rfl⟩ := h
  exact Balanced.cons (level_punctuator (by decide)) (Balanced.cons (level_name _)
    (balanced_parenthesized balanced_argument hus))

theorem level_type {ts : List Piece} (h : TypeTokens ts) : Level ts := by
  induction h with
  | named name => exact level_name name
  | list h ih => exact ih.brackets (by decide) (by decide)
  | nonNull h ih => exact ih.append (level_punctuator (by decide))

/-- The parentheses of a directive may be inside those of the variables. After them the loop
counts the braces of the default values, which are balanced. -/
theorem balanced_variableDefinition (v : VariableDefinition) (ts : List Piece)
    (h : v.Tokens ts) : Balanced ts := by
  obtain ⟨type, us, directives, ds, htype, hdefault, hds, rfl⟩ := h
  have hus : Level us := by
    unfold DefaultTokens at hdefault
    split at hdefault
    · obtain rfl := hdefault
      exact level_nil
    · obtain ⟨us', hus', rfl⟩ := hdefault
      exact (level_punctuator (by decide)).cons (level_value _ hus')
  have hhead : Level (type ++ us) := (level_type htype).append hus
  exact Balanced.cons (level_punctuator (by decide)) (Balanced.cons (level_name _)
    (Balanced.cons (level_punctuator (by decide))
      (hhead.balanced.append (balanced_many balanced_directive hds))))

theorem level_typeCondition {ts : List Piece} (h : TypeConditionTokens ts) : Level ts := by
  obtain ⟨type, rfl⟩ := h
  exact (level_name _).cons (level_name _)

theorem balanced_queryHead {vars : List VariableDefinition} {ts : List Piece}
    (h : QueryHeadTokens vars ts) : Balanced ts := by
  rcases h with ⟨-, rfl⟩ | ⟨name, us, directives, ds, hname, hus, hds, rfl⟩
  · exact level_nil.balanced
  · have hlabel : Level name := by
      rcases hname with rfl | ⟨text, rfl⟩
      · exact level_nil
      · exact level_name text
    exact Balanced.cons (level_name _) ((hlabel.balanced.append
      (balanced_parenthesized balanced_variableDefinition hus)).append
        (balanced_many balanced_directive hds))

/-- Balanced tokens outside parentheses. -/
theorem Balanced.outside {ts : List Piece} (h : Balanced ts) {limit n : ℤ} {rest : List Char}
    (hscan : checkBrackets limit (brackets ts ++ rest) n false = true) :
    checkBrackets limit rest n false = true := by
  obtain ⟨b', hrest, hb'⟩ := h.passes hscan
  rwa [hb' rfl] at hrest

mutual

/-- Where the loop passes over the tokens of a selection, it is not nested too deep. -/
theorem Selection.nesting_le (s : Selection) {ts : List Piece} (h : s.Tokens ts) {limit n : ℤ}
    {rest : List Char} (hn : n ≤ limit)
    (hscan : checkBrackets limit (brackets ts ++ rest) n false = true) :
    n + s.nesting ≤ limit ∧ checkBrackets limit rest n false = true := by
  cases s with
  | field name arguments directives selectionSet =>
    obtain ⟨label, us, ds, set, hlabel, hus, hds, hset, rfl⟩ := h
    have hlevel : Level label := by
      rcases hlabel with rfl | ⟨text, rfl⟩
      · exact level_nil
      · exact (level_name _).cons (level_punctuator (by decide))
    have hhead : Balanced (label ++ .name name.toList :: (us ++ ds)) :=
      hlevel.balanced.append (Balanced.cons (level_name _)
        ((balanced_parenthesized balanced_argument hus).append
          (balanced_many balanced_directive hds)))
    rw [← List.cons_append, ← List.append_assoc, brackets_append, List.append_assoc] at hscan
    have hscan := hhead.outside hscan
    rcases hset with ⟨rfl, rfl⟩ | ⟨hne, inner, hinner, rfl⟩
    · exact ⟨by simpa [Selection.nesting] using hn, hscan⟩
    · rw [Selection.nesting, if_neg (by simpa using hne)]
      exact Selection.nestingOfSet_le selectionSet hinner hscan
  | fragmentSpread name directives =>
    obtain ⟨ds, -, hds, rfl⟩ := h
    have hscan := (Balanced.cons (level_spread) (Balanced.cons (level_name _)
      (balanced_many balanced_directive hds))).outside hscan
    exact ⟨by simpa [Selection.nesting] using hn, hscan⟩
  | inlineFragment directives selectionSet =>
    obtain ⟨condition, ds, inner, hcondition, hds, -, hinner, rfl⟩ := h
    have hlevel : Level condition := by
      rcases hcondition with rfl | hcondition
      · exact level_nil
      · exact level_typeCondition hcondition
    have hhead : Balanced (.spread :: (condition ++ ds)) :=
      Balanced.cons (level_spread)
        (hlevel.balanced.append (balanced_many balanced_directive hds))
    rw [← List.cons_append, brackets_append, List.append_assoc] at hscan
    exact Selection.nestingOfSet_le selectionSet hinner (hhead.outside hscan)

theorem Selection.nestingOfSet_le (ss : List Selection) {inner : List Piece}
    (h : Selection.TokensOfList ss inner) {limit n : ℤ} {rest : List Char}
    (hscan : checkBrackets limit (brackets (enclosed '{' inner '}') ++ rest) n false = true) :
    n + (1 + Selection.nestingOfList ss : ℕ) ≤ limit ∧ checkBrackets limit rest n false = true := by
  rw [brackets_enclosed, List.cons_append, List.append_assoc, List.singleton_append] at hscan
  obtain ⟨hopen, hinner⟩ := checkBrackets_cons.mp hscan
  have hone : bracketChange '{' (isWhereAfter '{' false) = 1 := by decide
  rw [hone] at hopen hinner
  obtain ⟨hdeep, hclose⟩ := Selection.nestingOfList_le ss h hopen hinner
  refine ⟨by push_cast; omega, ?_⟩
  simpa [isWhereAfter, bracketChange] using (checkBrackets_cons.mp hclose).2

theorem Selection.nestingOfList_le (ss : List Selection) {ts : List Piece}
    (h : Selection.TokensOfList ss ts) {limit n : ℤ} {rest : List Char} (hn : n ≤ limit)
    (hscan : checkBrackets limit (brackets ts ++ rest) n false = true) :
    n + Selection.nestingOfList ss ≤ limit ∧ checkBrackets limit rest n false = true := by
  cases ss with
  | nil =>
    obtain rfl := h
    exact ⟨by simpa [Selection.nestingOfList] using hn, hscan⟩
  | cons s ss =>
    obtain ⟨us, us', hus, hus', rfl⟩ := h
    rw [brackets_append, List.append_assoc] at hscan
    obtain ⟨hs, hscan⟩ := Selection.nesting_le s hus hn hscan
    obtain ⟨hss, hscan⟩ := Selection.nestingOfList_le ss hus' hn hscan
    refine ⟨?_, hscan⟩
    rw [Selection.nestingOfList]
    omega

end

/-- Where the loop passes over the tokens of a definition, it is not nested too deep. -/
theorem Definition.nesting_le {d : Definition} (hd : d.isOther = false) {ts : List Piece}
    (h : d.Tokens ts) {limit n : ℤ} {rest : List Char}
    (hscan : checkBrackets limit (brackets ts ++ rest) n false = true) :
    n + d.nesting ≤ limit ∧ checkBrackets limit rest n false = true := by
  cases d with
  | query vars selectionSet =>
    obtain ⟨head, set, hhead, ⟨-, inner, hinner, rfl⟩, rfl⟩ := h
    rw [brackets_append, List.append_assoc] at hscan
    exact Selection.nestingOfSet_le selectionSet hinner ((balanced_queryHead hhead).outside hscan)
  | fragment name selectionSet =>
    obtain ⟨condition, directives, ds, set, -, hcondition, hds, ⟨-, inner, hinner, rfl⟩, rfl⟩ := h
    have hhead : Balanced (.name "fragment".toList :: .name name.toList :: (condition ++ ds)) :=
      Balanced.cons (level_name _) (Balanced.cons (level_name _)
        ((level_typeCondition hcondition).balanced.append (balanced_many balanced_directive hds)))
    rw [← List.cons_append, ← List.cons_append, brackets_append, List.append_assoc] at hscan
    exact Selection.nestingOfSet_le selectionSet hinner (hhead.outside hscan)
  | other => cases hd

theorem nesting_le_of_brackets {ds : List Definition} (hds : ∀ d ∈ ds, d.isOther = false)
    {ts : List Piece} (h : Many Definition.Tokens ds ts) {limit : ℤ}
    (hscan : checkBrackets limit (brackets ts) 0 false = true) :
    ∀ d ∈ ds, (d.nesting : ℤ) ≤ limit := by
  induction ds generalizing ts with
  | nil => simp
  | cons d ds ih =>
    obtain ⟨us, vs, hus, hvs, rfl⟩ := h
    obtain ⟨hd, hrest⟩ := List.forall_mem_cons.mp hds
    rw [brackets_append] at hscan
    obtain ⟨hle, hscan⟩ := Definition.nesting_le hd hus hscan
    exact List.forall_mem_cons.mpr ⟨by omega, ih hrest hvs hscan⟩

/-! ## 5. The limit -/

section
variable (cfg : GateConfig) (gql : String → Option Document)

/-- The limit on the depth holds for a query that the loop lets pass, if its comments and strings
are harmless where they stand. -/
theorem depth_limited_of_clean (hgql : ∀ query doc, gql query = some doc → Parses query doc)
    {query : String} {doc : Document} (hdoc : gql query = some doc)
    (hqueries : ∀ d ∈ doc.definitions, d.isOther = false) (hclean : Clean query)
    (hpasses : checkBrackets (cfg.depthLimit + 2) query.toList 0 false = true) :
    ∀ d ∈ doc.definitions, d.nesting ≤ cfg.depthLimit + 2 := by
  obtain ⟨pieces, hlex, htokens⟩ := hgql query doc hdoc
  obtain ⟨htext, hkind⟩ := lex_spec hlex
  rw [← htext] at hpasses
  have hscan := checkBrackets_brackets hkind (hclean pieces hlex) le_rfl hpasses
  rw [← brackets_filter] at hscan
  intro d hd
  have hle := nesting_le_of_brackets hqueries htokens hscan d hd
  exact_mod_cast hle

end

/-- A parser that knows one text. -/
def parsedOne (text : String) (doc : Document) (query : String) : Option Document :=
  if query = text then some doc else none

theorem parses_parsedOne {text : String} {doc : Document} (h : Parses text doc) (query : String)
    (d : Document) (hd : parsedOne text doc query = some d) : Parses query d := by
  unfold parsedOne at hd
  split at hd
  case isTrue hquery => rwa [hquery, ← Option.some.inj hd]
  case isFalse => cases hd

/-- The name of a field. -/
def fieldToken (name : String) : Piece := .name name.toList

/-- A comment and a string with parentheses. -/
def cleanQuery : String := "# all (of a)\n\x7ba(x: \"(\") \x7bb\x7d\x7d"

def cleanDocument : Document where
  first := .query [] [.field "a" [⟨"x", .literal none⟩] [] [.field "b" [] [] []]]
  rest := []

def cleanPieces : List Piece :=
  [.comment "# all (of a)".toList, .ignored '\n', .punctuator '{', fieldToken "a",
    .punctuator '(', fieldToken "x", .punctuator ':', .ignored ' ', .string ['"', '(', '"'],
    .punctuator ')', .ignored ' ', .punctuator '{', fieldToken "b", .punctuator '}',
    .punctuator '}']

theorem lex_cleanQuery : lex cleanQuery.toList = some cleanPieces := by decide +kernel

/-- The tokens of the field `a`. -/
def cleanTokens : List Piece :=
  fieldToken "a" :: (enclosed '(' [fieldToken "x", .punctuator ':', .string ['"', '(', '"']] ')' ++
    enclosed '{' [fieldToken "b"] '}')

theorem tokens_cleanField : Selection.Tokens
    (.field "a" [⟨"x", .literal none⟩] [] [.field "b" [] [] []]) cleanTokens := by
  refine ⟨[], _, [], _, Or.inl rfl, Or.inr ⟨_, ⟨_, [], ⟨[.string ['"', '(', '"']], ?_, rfl⟩, rfl,
    rfl⟩, rfl⟩, rfl, Or.inr ⟨List.cons_ne_nil _ _, [fieldToken "b"], ?_, rfl⟩, rfl⟩
  · exact ⟨_, rfl, rfl⟩
  · exact ⟨_, [], ⟨[], [], [], [], Or.inl rfl, Or.inl ⟨rfl, rfl⟩, rfl, Or.inl ⟨rfl, rfl⟩, rfl⟩,
      rfl, rfl⟩

theorem parses_cleanQuery : Parses cleanQuery cleanDocument := by
  refine ⟨cleanPieces, lex_cleanQuery, enclosed '{' cleanTokens '}', [], ?_, rfl, rfl⟩
  exact ⟨[], _, Or.inl ⟨rfl, rfl⟩, ⟨List.cons_ne_nil _ _, cleanTokens,
    ⟨_, [], tokens_cleanField, rfl, (List.append_nil _).symm⟩, rfl⟩, rfl⟩

theorem depth_limited_cleanQuery :
    cleanDocument.first.nesting ≤ graphiqlApi.depthLimit + 2 := by
  have hdoc : parsedOne cleanQuery cleanDocument cleanQuery = some cleanDocument := if_pos rfl
  refine depth_limited_of_clean graphiqlApi _ (parses_parsedOne parses_cleanQuery) hdoc
    (by decide) ?_ ?_ _ List.mem_cons_self
  · intro pieces hpieces
    rw [lex_cleanQuery] at hpieces
    obtain rfl := Option.some.inj hpieces
    decide
  · decide +kernel

/-- After the `(` in the comment the loop counts no brace. -/
def commentQuery : String := "\x7b #(\n a {b {c {d {e {f}}}}} \x7d"

/-- Some selections inside each other. -/
def nestedFields : List String → List Selection
  | [] => []
  | name :: names => [.field name [] [] (nestedFields names)]

def commentDocument : Document where
  first := .query [] (nestedFields ["a", "b", "c", "d", "e", "f"])
  rest := []

def nestedTokens : List String → List Piece
  | [] => []
  | [name] => [fieldToken name]
  | name :: names => fieldToken name :: enclosed '{' (nestedTokens names) '}'

theorem tokens_nestedFields (names : List String) :
    Selection.TokensOfList (nestedFields names) (nestedTokens names) := by
  induction names with
  | nil => rfl
  | cons name names ih =>
    cases names with
    | nil =>
      exact ⟨_, [], ⟨[], [], [], [], Or.inl rfl, Or.inl ⟨rfl, rfl⟩, rfl, Or.inl ⟨rfl, rfl⟩, rfl⟩,
        rfl, rfl⟩
    | cons name' names =>
      exact ⟨_, [], ⟨[], [], [], _, Or.inl rfl, Or.inl ⟨rfl, rfl⟩, rfl,
        Or.inr ⟨List.cons_ne_nil _ _, _, ih, rfl⟩, rfl⟩, rfl, (List.append_nil _).symm⟩

def commentPieces : List Piece :=
  [.punctuator '{', .ignored ' ', .comment ['#', '('], .ignored '\n', .ignored ' ',
    fieldToken "a", .ignored ' ', .punctuator '{', fieldToken "b", .ignored ' ', .punctuator '{',
    fieldToken "c", .ignored ' ', .punctuator '{', fieldToken "d", .ignored ' ', .punctuator '{',
    fieldToken "e", .ignored ' ', .punctuator '{', fieldToken "f", .punctuator '}',
    .punctuator '}', .punctuator '}', .punctuator '}', .punctuator '}', .ignored ' ',
    .punctuator '}']

theorem parses_commentQuery : Parses commentQuery commentDocument := by
  refine ⟨commentPieces, by decide +kernel,
    enclosed '{' (nestedTokens ["a", "b", "c", "d", "e", "f"]) '}', [], ?_, rfl, rfl⟩
  exact ⟨[], _, Or.inl ⟨rfl, rfl⟩,
    ⟨List.cons_ne_nil _ _, _, tokens_nestedFields _, rfl⟩, rfl⟩

/-- Six selection sets inside each other pass a limit of five. -/
theorem depth_limit_bypassed :
    ¬ ∀ (cfg : GateConfig) (gql : String → Option Document),
      (∀ query doc, gql query = some doc → Parses query doc) →
      ∀ query doc, gql query = some doc → whitelisted cfg query = false →
        handleGraphQLQuery cfg gql query = .forwarded →
        ∀ d ∈ doc.definitions, d.nesting ≤ cfg.depthLimit + 2 := by
  intro h
  have hforwarded : handleGraphQLQuery graphiqlApi (parsedOne commentQuery commentDocument)
      commentQuery = .forwarded := by
    decide +kernel
  have hle := h graphiqlApi (parsedOne commentQuery commentDocument)
    (parses_parsedOne parses_commentQuery) commentQuery commentDocument (if_pos rfl) rfl
    hforwarded _ List.mem_cons_self
  exact absurd hle (by decide)

end Erascope.Graphql
