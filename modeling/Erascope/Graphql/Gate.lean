import Mathlib.Tactic
import Erascope.Graphql.Guard

/-!
# The gate of the GraphQL service

`handleGraphQLQuery` of `services/api-gateways/graphiql.service.ts`: a request is forwarded to
Hasura when its definitions are queries and fragments and, unless its text is on the
whitelist, when the brackets of the text are not nested too deep and the selections of the
first definition keep the limits. The gate looks at the text and at the first definition; what
is executed is an operation of the whole document, with its variables. `gql`, the parser, is a
parameter.

* `handleGraphQLQuery`: the gate, up to the answer of Hasura.
* `Shows`: the loop over the text counts the braces of the selection sets.

Results:
1. `handleGraphQLQuery_forwarded_iff`: what the gate checks.
2. `checkBrackets_of_shows`: the loop bounds the nesting of the first definition.
-/

namespace Erascope.Graphql

/-! ## 1. `handleGraphQLQuery` -/

/-- The part `graphiqlApi` of the configuration, and the whitelist. -/
structure GateConfig extends GuardConfig where
  depthLimit : ℕ
  rootWhereDepthLimit : ℕ
  subWhereDepthLimit : ℕ
  queryHeightRangeLimit : ℚ
  queryWhitelist : List String

/-- The `errors` of a response with the code `WRONG`. -/
inductive GateError
  | invalidQuery
  | onlyQueries
  | depth (limit : ℕ)
  | rootWhereDepth (limit : ℕ)
  | subWhereDepth (limit : ℕ)
  | heightCondition (models : List String)
  | heightRange (limit : ℚ) (models : List String)
deriving DecidableEq

/-- The texts of the errors. -/
def GateError.text : GateError → String
  | .invalidQuery => "Invalid query"
  | .onlyQueries => "This Horoscope GraphiQL service only allows query operations"
  | .depth limit => s!"The query depth must not be greater than {limit}"
  | .rootWhereDepth limit => s!"The root where query depth must not be greater than {limit}"
  | .subWhereDepth limit => s!"The sub where query depth must not be greater than {limit}"
  | .heightCondition models =>
    "The query to one of the following tables needs to include exact height (_eq) or a height " ++
      "range (_gt/_gte & _lt/_lte) in where argument: " ++ ",".intercalate models
  | .heightRange limit models =>
    s!"The query height range in one of the following tables needs to be less than {limit}: " ++
      ",".intercalate models

/-- The end of a request. -/
inductive Response
  | threw
  | wrong (errors : GateError)
  | forwarded
deriving DecidableEq

section
variable (cfg : GateConfig)

/-- `isWhere` after a character -/
def isWhereAfter (c : Char) (isWhere : Bool) : Bool :=
  if c = '(' then true else if c = ')' then false else isWhere

/-- The loop over the text: it ends when `openBrackets` is over the limit. -/
def checkBrackets (limit : ℤ) : List Char → ℤ → Bool → Bool
  | [], _, _ => true
  | c :: cs, openBrackets, isWhere =>
    let isWhere := isWhereAfter c isWhere
    let openBrackets :=
      if c = '{' && !isWhere then openBrackets + 1
      else if c = '}' && !isWhere then openBrackets - 1
      else openBrackets
    if openBrackets > limit then false else checkBrackets limit cs openBrackets isWhere

/-- `heightRange > limit`; false for `NaN`. -/
def exceeds (heightRange : Option ℚ) (limit : ℚ) : Bool :=
  match heightRange with
  | none => false
  | some range => range > limit

/-- The depth of the `where` argument of a field of the second level. -/
def checkRootWhere (result : Option GateError) (sel : Selection) : Option GateError :=
  match sel.whereArgument with
  | some w =>
    if w.getDepth > cfg.rootWhereDepthLimit + 1 then
      some (.rootWhereDepth cfg.rootWhereDepthLimit)
    else result
  | none => result

/-- The depth of the `where` arguments below it. -/
def checkSubWhere (result : Option GateError) (sel : Selection) : Option GateError :=
  match result with
  | none =>
    (filterWhereQuery sel.selectionSet).foldl
      (fun (result : Option GateError) (sub : Argument) =>
        if sub.getDepth > cfg.subWhereDepthLimit + 1 then
          some (.subWhereDepth cfg.subWhereDepthLimit)
        else result)
      none
  | some e => some e

/-- The condition on the height; `none` when the guard throws. -/
def checkHeight (result : Option GateError) (sel : Selection) : Option (Option GateError) :=
  match result with
  | none =>
    match isQueryNeedCondition cfg.toGuardConfig sel with
    | none => none
    | some (heightCondition, heightRange) =>
      let result := if heightCondition then none else some (GateError.heightCondition cfg.models)
      if exceeds heightRange cfg.queryHeightRangeLimit then
        some (some (.heightRange cfg.queryHeightRangeLimit cfg.models))
      else some result
  | some e => some (some e)

/-- The checks of a field of the second level, after those of the fields before it. -/
def checkSel (result : Option GateError) (sel : Selection) : Option (Option GateError) :=
  checkHeight cfg (checkSubWhere cfg (checkRootWhere cfg result sel) sel) sel

/-- The checks below a field of the first level; it throws when there is no selection set. -/
def checkSelection (result : Option GateError) (selection : Selection) :
    Option (Option GateError) :=
  if selection.selectionSet.isEmpty then none
  else selection.selectionSet.foldlM (checkSel cfg) result

/-- The whitelist has the queries without spaces and newlines. -/
def whitelisted (query : String) : Bool :=
  cfg.queryWhitelist.any fun entry =>
    entry.toList = (query.toList.filter (· ≠ ' ')).filter (· ≠ '\n')

def Definition.isOther : Definition → Bool
  | .other => true
  | _ => false

def Definition.selectionSet : Definition → List Selection
  | .query _ selectionSet => selectionSet
  | .fragment _ selectionSet => selectionSet
  | .other => []

/-- `handleGraphQLQuery` up to the request to Hasura -/
def handleGraphQLQuery (gql : String → Option Document) (query : String) : Response :=
  match gql query with
  | none => .wrong .invalidQuery
  | some doc =>
    if doc.definitions.any Definition.isOther then .wrong .onlyQueries
    else if whitelisted cfg query then .forwarded
    else if !checkBrackets (cfg.depthLimit + 2) query.toList 0 false then
      .wrong (.depth cfg.depthLimit)
    else
      match doc.first.selectionSet.foldlM (checkSelection cfg) none with
      | none => .threw
      | some (some e) => .wrong e
      | some none => .forwarded

/-! ## 2. What the gate checks -/

/-- The limits for a field of the second level. -/
structure KeepsLimits (sel : Selection) : Prop where
  rootWhere : ∀ w ∈ sel.whereArgument, w.getDepth ≤ cfg.rootWhereDepthLimit + 1
  subWhere : ∀ w ∈ filterWhereQuery sel.selectionSet, w.getDepth ≤ cfg.subWhereDepthLimit + 1
  height : ∃ range, isQueryNeedCondition cfg.toGuardConfig sel = some (true, range) ∧
    exceeds range cfg.queryHeightRangeLimit = false

/-- The limits for the selections of the first definition. -/
def SelectionsOk (selections : List Selection) : Prop :=
  ∀ s ∈ selections, s.selectionSet ≠ [] ∧ ∀ sel ∈ s.selectionSet, KeepsLimits cfg sel

section
variable {α : Type} {check : Option GateError → α → Option (Option GateError)}

/-- An error stays through checks that keep it. -/
theorem foldlM_ne_none (hkeep : ∀ e x, check (some e) x ≠ some none) (xs : List α) (e : GateError) :
    xs.foldlM check (some e) ≠ some none := by
  induction xs generalizing e with
  | nil =>
    intro h
    cases h
  | cons x xs ih =>
    intro h
    rw [List.foldlM_cons] at h
    cases hx : check (some e) x with
    | none =>
      rw [hx] at h
      cases h
    | some r =>
      cases r with
      | none => exact hkeep e x hx
      | some e' =>
        rw [hx] at h
        exact ih e' h

/-- Checks that keep an error find none exactly when each of them finds none. -/
theorem foldlM_eq_none_iff (hkeep : ∀ e x, check (some e) x ≠ some none) (xs : List α) :
    xs.foldlM check none = some none ↔ ∀ x ∈ xs, check none x = some none := by
  induction xs with
  | nil => simp
  | cons x xs ih =>
    rw [List.foldlM_cons, List.forall_mem_cons]
    cases hx : check none x with
    | none => simp
    | some r =>
      cases r with
      | none => exact ih.trans ⟨fun h => ⟨rfl, h⟩, And.right⟩
      | some e =>
        have hne : xs.foldlM check (some e) ≠ some none := foldlM_ne_none hkeep xs e
        exact ⟨fun h => absurd h hne, fun h => by cases h.1⟩

end

theorem checkRootWhere_some (e : GateError) (sel : Selection) :
    ∃ e', checkRootWhere cfg (some e) sel = some e' := by
  unfold checkRootWhere
  cases sel.whereArgument with
  | none => exact ⟨e, rfl⟩
  | some w =>
    dsimp only
    split
    · exact ⟨_, rfl⟩
    · exact ⟨e, rfl⟩

theorem checkSel_some (e : GateError) (sel : Selection) :
    checkSel cfg (some e) sel ≠ some none := by
  obtain ⟨e', h⟩ := checkRootWhere_some cfg e sel
  rw [checkSel, h]
  exact fun h => by cases h

theorem checkRootWhere_none_iff (sel : Selection) :
    checkRootWhere cfg none sel = none ↔
      ∀ w ∈ sel.whereArgument, w.getDepth ≤ cfg.rootWhereDepthLimit + 1 := by
  unfold checkRootWhere
  cases sel.whereArgument with
  | none => simp
  | some w => simp

theorem checkSubWhere_none_iff (sel : Selection) :
    checkSubWhere cfg none sel = none ↔
      ∀ w ∈ filterWhereQuery sel.selectionSet, w.getDepth ≤ cfg.subWhereDepthLimit + 1 := by
  unfold checkSubWhere
  dsimp only
  induction filterWhereQuery sel.selectionSet using List.reverseRecOn with
  | nil => simp
  | append_singleton ws w ih =>
    rw [List.foldl_concat]
    by_cases hw : w.getDepth > cfg.subWhereDepthLimit + 1
    · rw [if_pos hw]
      simp only [reduceCtorEq, List.mem_append, List.mem_singleton, false_iff, not_forall]
      exact ⟨w, Or.inr rfl, by omega⟩
    · rw [if_neg hw, ih]
      simp only [List.forall_mem_append, List.forall_mem_singleton]
      exact ⟨fun h => ⟨h, by omega⟩, And.left⟩

theorem checkHeight_none_iff (sel : Selection) :
    checkHeight cfg none sel = some none ↔
      ∃ range, isQueryNeedCondition cfg.toGuardConfig sel = some (true, range) ∧
        exceeds range cfg.queryHeightRangeLimit = false := by
  unfold checkHeight
  dsimp only
  cases isQueryNeedCondition cfg.toGuardConfig sel with
  | none => simp
  | some r =>
    obtain ⟨heightCondition, heightRange⟩ := r
    dsimp only
    cases he : exceeds heightRange cfg.queryHeightRangeLimit <;> cases heightCondition <;>
      simp [he]

theorem checkSel_none_iff (sel : Selection) :
    checkSel cfg none sel = some none ↔ KeepsLimits cfg sel := by
  unfold checkSel
  constructor
  · intro h
    cases hroot : checkRootWhere cfg none sel with
    | some e =>
      rw [hroot] at h
      cases h
    | none =>
      cases hsub : checkSubWhere cfg none sel with
      | some e =>
        rw [hroot, hsub] at h
        cases h
      | none =>
        rw [hroot, hsub] at h
        exact ⟨(checkRootWhere_none_iff cfg sel).mp hroot,
          (checkSubWhere_none_iff cfg sel).mp hsub, (checkHeight_none_iff cfg sel).mp h⟩
  · intro h
    rw [(checkRootWhere_none_iff cfg sel).mpr h.rootWhere,
      (checkSubWhere_none_iff cfg sel).mpr h.subWhere]
    exact (checkHeight_none_iff cfg sel).mpr h.height

theorem checkSelection_some (e : GateError) (s : Selection) :
    checkSelection cfg (some e) s ≠ some none := by
  unfold checkSelection
  split
  · exact fun h => by cases h
  · exact foldlM_ne_none (checkSel_some cfg) s.selectionSet e

theorem selections_none_iff (selections : List Selection) :
    selections.foldlM (checkSelection cfg) none = some none ↔ SelectionsOk cfg selections := by
  rw [foldlM_eq_none_iff (checkSelection_some cfg)]
  refine forall₂_congr fun s _ => ?_
  unfold checkSelection
  cases s.selectionSet with
  | nil => simp
  | cons sel sels =>
    rw [List.isEmpty_cons, if_neg Bool.false_ne_true, foldlM_eq_none_iff (checkSel_some cfg)]
    simp only [checkSel_none_iff, ne_eq, reduceCtorEq, not_false_eq_true, true_and]

/-- What the gate checks of a request whose text is not on the whitelist. -/
theorem handleGraphQLQuery_forwarded_iff {gql : String → Option Document} {query : String}
    {doc : Document} (hdoc : gql query = some doc) (hlist : whitelisted cfg query = false) :
    handleGraphQLQuery cfg gql query = .forwarded ↔
      (∀ d ∈ doc.definitions, d.isOther = false) ∧
        checkBrackets (cfg.depthLimit + 2) query.toList 0 false ∧
          SelectionsOk cfg doc.first.selectionSet := by
  rw [← selections_none_iff]
  unfold handleGraphQLQuery
  rw [hdoc]
  dsimp only
  rw [hlist, if_neg Bool.false_ne_true]
  cases hother : doc.definitions.any Definition.isOther with
  | true =>
    obtain ⟨d, hd, hdo⟩ := List.any_eq_true.mp hother
    simp only [if_true, reduceCtorEq, false_iff]
    intro h
    rw [h.1 d hd] at hdo
    cases hdo
  | false =>
    have hall : ∀ d ∈ doc.definitions, d.isOther = false := by
      simpa using List.any_eq_false.mp hother
    rw [if_neg Bool.false_ne_true]
    cases checkBrackets (cfg.depthLimit + 2) query.toList 0 false with
    | false => simp
    | true =>
      cases doc.first.selectionSet.foldlM (checkSelection cfg) none with
      | none => simp
      | some r =>
        cases r with
        | none => exact ⟨fun _ => ⟨hall, rfl, rfl⟩, fun _ => rfl⟩
        | some e => simp

end

/-! ## 3. The brackets of a text -/

/-- The braces of a text outside parentheses: those that the loop counts. -/
def countedBraces : List Char → Bool → List Char
  | [], _ => []
  | c :: cs, isWhere =>
    let isWhere := isWhereAfter c isWhere
    if (c = '{' || c = '}') && !isWhere then c :: countedBraces cs isWhere
    else countedBraces cs isWhere

mutual

/-- The braces of the selection sets inside a selection. -/
def Selection.braces : Selection → List Char
  | .field _ _ _ selectionSet =>
    if selectionSet.isEmpty then [] else '{' :: (Selection.bracesOfList selectionSet ++ ['}'])
  | .fragmentSpread _ _ => []
  | .inlineFragment _ selectionSet => '{' :: (Selection.bracesOfList selectionSet ++ ['}'])

def Selection.bracesOfList : List Selection → List Char
  | [] => []
  | s :: ss => s.braces ++ Selection.bracesOfList ss

end

def Definition.braces (d : Definition) : List Char :=
  '{' :: (Selection.bracesOfList d.selectionSet ++ ['}'])

/-- The loop counts the braces of the selection sets and no others: no comment has a bracket in
it, and no string a parenthesis. -/
def Shows (query : String) (doc : Document) : Prop :=
  countedBraces query.toList false = doc.definitions.flatMap Definition.braces

mutual

/-- How deep selection sets are inside each other. -/
def Selection.nesting : Selection → ℕ
  | .field _ _ _ selectionSet =>
    if selectionSet.isEmpty then 0 else 1 + Selection.nestingOfList selectionSet
  | .fragmentSpread _ _ => 0
  | .inlineFragment _ selectionSet => 1 + Selection.nestingOfList selectionSet

def Selection.nestingOfList : List Selection → ℕ
  | [] => 0
  | s :: ss => max s.nesting (Selection.nestingOfList ss)

end

theorem checkBrackets_open (limit n : ℤ) (cs : List Char) :
    checkBrackets limit ('{' :: cs) n false =
      (decide (n + 1 ≤ limit) && checkBrackets limit cs (n + 1) false) := by
  show (if n + 1 > limit then false else checkBrackets limit cs (n + 1) false) = _
  by_cases h : n + 1 ≤ limit
  · rw [if_neg (not_lt.mpr h), decide_eq_true h, Bool.true_and]
  · rw [if_pos (not_le.mp h), decide_eq_false h, Bool.false_and]

theorem checkBrackets_close {limit n : ℤ} (cs : List Char) (hn : n - 1 ≤ limit) :
    checkBrackets limit ('}' :: cs) n false = checkBrackets limit cs (n - 1) false := by
  show (if n - 1 > limit then false else checkBrackets limit cs (n - 1) false) = _
  rw [if_neg (not_lt.mpr hn)]

/-- The loop only depends on the braces that it counts. -/
theorem checkBrackets_countedBraces {limit : ℤ} (cs : List Char) {n : ℤ} (isWhere : Bool)
    (hn : n ≤ limit) :
    checkBrackets limit cs n isWhere = checkBrackets limit (countedBraces cs isWhere) n false := by
  induction cs generalizing n isWhere with
  | nil => rfl
  | cons c cs ih =>
    simp only [checkBrackets, countedBraces]
    generalize isWhereAfter c isWhere = w
    cases w with
    | true =>
      simp only [Bool.not_true, Bool.and_false, Bool.false_eq_true, if_false]
      rw [if_neg (not_lt.mpr hn)]
      exact ih true hn
    | false =>
      by_cases hopen : c = '{'
      · subst hopen
        simp only [decide_true, Bool.not_false, Bool.and_true, Bool.true_or, if_true]
        rw [checkBrackets_open]
        by_cases h : n + 1 ≤ limit
        · rw [if_neg (not_lt.mpr h), decide_eq_true h, Bool.true_and]
          exact ih false h
        · rw [if_pos (not_le.mp h), decide_eq_false h, Bool.false_and]
      · by_cases hclose : c = '}'
        · subst hclose
          have h : n - 1 ≤ limit := by omega
          simp only [hopen, decide_true, decide_false, Bool.not_false, Bool.and_true,
            Bool.or_true, Bool.false_eq_true, if_false, if_true]
          rw [checkBrackets_close _ h, if_neg (not_lt.mpr h)]
          exact ih false h
        · simp only [hopen, hclose, decide_false, Bool.false_and, Bool.or_false,
            Bool.false_eq_true, if_false]
          rw [if_neg (not_lt.mpr hn)]
          exact ih false hn

mutual

theorem Selection.checkBrackets_braces {limit : ℤ} (s : Selection) (cs : List Char) {n : ℤ}
    (hn : n ≤ limit) :
    checkBrackets limit (s.braces ++ cs) n false =
      (decide (n + s.nesting ≤ limit) && checkBrackets limit cs n false) := by
  cases s with
  | field name arguments directives selectionSet =>
    rw [Selection.braces, Selection.nesting]
    split
    · simp [hn]
    · exact Selection.checkBrackets_set selectionSet cs hn
  | fragmentSpread name directives => simp [Selection.braces, Selection.nesting, hn]
  | inlineFragment directives selectionSet =>
    exact Selection.checkBrackets_set selectionSet cs hn

theorem Selection.checkBrackets_set {limit : ℤ} (ss : List Selection) (cs : List Char) {n : ℤ}
    (hn : n ≤ limit) :
    checkBrackets limit ('{' :: (Selection.bracesOfList ss ++ ['}']) ++ cs) n false =
      (decide (n + (1 + Selection.nestingOfList ss : ℕ) ≤ limit) &&
        checkBrackets limit cs n false) := by
  rw [List.cons_append, checkBrackets_open, List.append_assoc, List.singleton_append]
  by_cases h : n + 1 ≤ limit
  · have hclose : n + 1 - 1 ≤ limit := by omega
    rw [Selection.checkBrackets_bracesOfList ss _ h, checkBrackets_close _ hclose,
      add_sub_cancel_right, decide_eq_true h, Bool.true_and]
    congr 2
    rw [Nat.cast_add, Nat.cast_one, add_assoc]
  · have hdeep : ¬ n + (1 + Selection.nestingOfList ss : ℕ) ≤ limit := by omega
    rw [decide_eq_false h, decide_eq_false hdeep, Bool.false_and, Bool.false_and]

theorem Selection.checkBrackets_bracesOfList {limit : ℤ} (ss : List Selection) (cs : List Char)
    {n : ℤ} (hn : n ≤ limit) :
    checkBrackets limit (Selection.bracesOfList ss ++ cs) n false =
      (decide (n + Selection.nestingOfList ss ≤ limit) && checkBrackets limit cs n false) := by
  cases ss with
  | nil => simp [Selection.bracesOfList, Selection.nestingOfList, hn]
  | cons s ss =>
    rw [Selection.bracesOfList, List.append_assoc, Selection.checkBrackets_braces s _ hn,
      Selection.checkBrackets_bracesOfList ss cs hn, ← Bool.and_assoc, Selection.nestingOfList]
    congr 1
    rw [← Bool.decide_and, decide_eq_decide]
    omega

end

/-- The loop over a text that shows its document, whose first definition has the selections
`doc.first.selectionSet`. -/
theorem checkBrackets_of_shows {query : String} {doc : Document} (h : Shows query doc)
    (limit : ℕ) :
    checkBrackets limit query.toList 0 false =
      (decide (1 + Selection.nestingOfList doc.first.selectionSet ≤ limit) &&
        checkBrackets limit (doc.rest.flatMap Definition.braces) 0 false) := by
  rw [checkBrackets_countedBraces _ _ (Int.natCast_nonneg limit), h, Document.definitions,
    List.flatMap_cons, Definition.braces, Selection.checkBrackets_set _ _ (Int.natCast_nonneg limit)]
  congr 1
  rw [decide_eq_decide]
  omega

end Erascope.Graphql
