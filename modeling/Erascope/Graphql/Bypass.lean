import Mathlib.Tactic
import Erascope.Graphql.Gate
import Erascope.Graphql.GuardExpand

/-!
# Bypassing the gate

The gate looks at the text of a request and at its first definition, while an operation of the
whole document is executed, with its fragments and its variables. This module compares the
decision on a document with the one on an expanded operation of it.

* `NotBypassed`: an operation of a forwarded document is forwarded expanded.
* `InSight`: the gate looks at all that will be executed.

Results:
1. `gate_not_bypassed`: a request in sight does not bypass the gate.
2. `fragment_bypasses`: a field that is refused passes inside a fragment.
-/

namespace Erascope.Graphql

/-! ## 1. The limits on the expansion -/

theorem nesting_addDirectives (ds : List Directive) (s : Selection) :
    (s.addDirectives ds).nesting = s.nesting := by
  cases s <;> rfl

theorem nestingOfList_map_addDirectives (ds : List Directive) (ss : List Selection) :
    Selection.nestingOfList (ss.map (Selection.addDirectives ds)) =
      Selection.nestingOfList ss := by
  induction ss with
  | nil => rfl
  | cons s ss ih =>
    rw [List.map_cons, Selection.nestingOfList, Selection.nestingOfList, nesting_addDirectives, ih]

theorem nestingOfList_append (ss ts : List Selection) :
    Selection.nestingOfList (ss ++ ts) =
      max (Selection.nestingOfList ss) (Selection.nestingOfList ts) := by
  induction ss with
  | nil => simp [Selection.nestingOfList]
  | cons s ss ih => rw [List.cons_append, Selection.nestingOfList, ih, Selection.nestingOfList,
      max_assoc]

mutual

theorem nesting_expand {σ : Values} (fragments : String → List Selection) (s : Selection)
    (hs : s.inView) : Selection.nestingOfList (s.expand σ fragments) ≤ s.nesting := by
  cases s with
  | field name arguments directives selectionSet =>
    have ih := nesting_expandList (σ := σ) fragments selectionSet hs
    simp only [Selection.expand, Selection.nestingOfList, Selection.nesting]
    cases selectionSet with
    | nil => simp [Selection.expandList]
    | cons t ts =>
      rw [List.isEmpty_cons, if_neg Bool.false_ne_true]
      split <;> omega
  | fragmentSpread name directives => cases hs
  | inlineFragment directives selectionSet =>
    rw [Selection.inView, Bool.and_eq_true] at hs
    have ih := nesting_expandList (σ := σ) fragments selectionSet hs.2
    rw [Selection.expand, nestingOfList_map_addDirectives, Selection.nesting]
    omega

/-- In view, the expansion is not deeper. -/
theorem nesting_expandList {σ : Values} (fragments : String → List Selection)
    (ss : List Selection) (hss : Selection.inViewList ss) :
    Selection.nestingOfList (Selection.expandList σ fragments ss) ≤
      Selection.nestingOfList ss := by
  cases ss with
  | nil => exact le_refl _
  | cons s ss =>
    rw [Selection.inViewList, Bool.and_eq_true] at hss
    rw [Selection.expandList, nestingOfList_append, Selection.nestingOfList]
    exact max_le_max (nesting_expand fragments s hss.1) (nesting_expandList fragments ss hss.2)

end

mutual

/-- A value without keys has no depth. -/
theorem Value.getDepth_of_nodes (v : Value) (h : v.nodes = []) : v.getDepth = 0 := by
  cases v with
  | var name => rfl
  | literal number => rfl
  | list values => exact Value.depthOfList_of_nodes values h
  | object fields =>
    cases fields with
    | nil => rfl
    | cons f fs => simp [Value.nodes, Value.nodesOfFields] at h

theorem Value.depthOfList_of_nodes (vs : List Value) (h : Value.nodesOfList vs = []) :
    Value.depthOfList vs = 0 := by
  cases vs with
  | nil => rfl
  | cons v vs =>
    obtain ⟨hv, hvs⟩ := List.append_eq_nil_iff.mp h
    rw [Value.depthOfList, Value.getDepth_of_nodes v hv, Value.depthOfList_of_nodes vs hvs,
      max_self]

end

section
variable {τ : String → Value}

mutual

theorem Value.getDepth_replace (v : Value) (hτ : ∀ x, (τ x).nodes = []) :
    (v.replace τ).getDepth = v.getDepth := by
  cases v with
  | var name => exact Value.getDepth_of_nodes (τ name) (hτ name)
  | literal number => rfl
  | list values => exact Value.depthOfList_replaceList values hτ
  | object fields => exact Value.depthOfFields_replaceFields fields hτ

theorem Value.depthOfList_replaceList (vs : List Value) (hτ : ∀ x, (τ x).nodes = []) :
    Value.depthOfList (Value.replaceList τ vs) = Value.depthOfList vs := by
  cases vs with
  | nil => rfl
  | cons v vs =>
    rw [Value.replaceList, Value.depthOfList, Value.depthOfList, Value.getDepth_replace v hτ,
      Value.depthOfList_replaceList vs hτ]

theorem Value.depthOfFields_replaceFields (fs : List (String × Value))
    (hτ : ∀ x, (τ x).nodes = []) :
    Value.depthOfFields (Value.replaceFields τ fs) = Value.depthOfFields fs := by
  match fs with
  | [] => rfl
  | (name, v) :: fs =>
    rw [Value.replaceFields, Value.depthOfFields, Value.depthOfFields, Value.getDepth_replace v hτ,
      Value.depthOfFields_replaceFields fs hτ]

end

def Seen.subWhere? : Seen → Option Argument
  | .subWhere a => some a
  | _ => none

theorem whereArgument?_eq (n : Node) : n.whereArgument? = n.seen.bind Seen.subWhere? := by
  cases n with
  | selection s => cases s <;> rfl
  | argument a =>
    simp only [Node.whereArgument?, Node.seen]
    split <;> rfl
  | objectField name value => rfl

theorem filterWhereQuery_eq (ss : List Selection) :
    filterWhereQuery ss = (seen (Selection.nodesOfList ss)).filterMap Seen.subWhere? := by
  rw [filterWhereQuery, seen, List.filterMap_filterMap]
  exact List.filterMap_congr fun n _ => whereArgument?_eq n

theorem filterWhereQuery_replace {ss ts : List Selection}
    (h : seen (Selection.nodesOfList ts) =
      (seen (Selection.nodesOfList ss)).map (Seen.replace τ)) :
    filterWhereQuery ts = (filterWhereQuery ss).map (Argument.replace τ) := by
  rw [filterWhereQuery_eq, filterWhereQuery_eq, h, List.filterMap_map, List.map_filterMap]
  refine List.filterMap_congr fun x _ => ?_
  cases x <;> rfl

/-- A selection keeps the limits replaced. -/
theorem keepsLimits_replace {cfg : GateConfig} (hτ : ∀ x, (τ x).nodes = []) {s t : Selection}
    (hst : Replaces τ s t) (hbounds : BoundsGiven cfg.toGuardConfig s.nodes)
    (h : KeepsLimits cfg s) : KeepsLimits cfg t where
  rootWhere := by
    intro w hw
    rw [hst.whereArgument] at hw
    obtain ⟨a, ha, rfl⟩ := Option.map_eq_some_iff.mp hw
    exact (Value.getDepth_replace a.value hτ).le.trans (h.rootWhere a ha)
  subWhere := by
    intro w hw
    rw [filterWhereQuery_replace hst.selectionSet] at hw
    obtain ⟨a, ha, rfl⟩ := List.mem_map.mp hw
    exact (Value.getDepth_replace a.value hτ).le.trans (h.subWhere a ha)
  height := by
    obtain ⟨range, hpass, hrange⟩ := h.height
    exact ⟨range, isQueryNeedCondition_replace hτ hst hbounds hpass, hrange⟩

end

/-! ## 2. Requests in sight -/

/-- The gate cannot be bypassed with a request: every operation of a forwarded document, not on
the whitelist, is forwarded when it is sent expanded and alone. -/
def NotBypassed (gql : String → Option Document) (cfg : GateConfig) (query : String)
    (vars : List (String × Value)) : Prop :=
  ∀ doc, gql query = some doc → whitelisted cfg query = false →
    handleGraphQLQuery cfg gql query = .forwarded →
      ∀ op ∈ doc.operations, ∀ text, gql text = some (doc.expansion vars op) →
        Shows text (doc.expansion vars op) → handleGraphQLQuery cfg gql text = .forwarded

def Selection.isField : Selection → Bool
  | .field _ _ _ _ => true
  | _ => false

/-- The highest count of the loop over a text is at least the nesting of the selections. -/
def CountReaches (query : String) (selections : List Selection) : Prop :=
  ∀ limit : ℕ, checkBrackets limit query.toList 0 false →
    1 + Selection.nestingOfList selections ≤ limit

/-- The variables in an argument have values, and these have no keys. A variable that is all of
an argument other than `where` may be without a value. -/
def Known (σ : Values) (a : Argument) : Prop :=
  ∀ x ∈ a.value.vars,
    match σ x with
    | some v => v.nodes = []
    | none => a.isOptional

/-- The gate looks at all that will be executed. -/
structure InSight (cfg : GateConfig) (query : String) (vars : List (String × Value))
    (doc : Document) : Prop where
  /-- Only the first definition is an operation. -/
  single : ∀ d ∈ doc.rest, d.operation? = none
  /-- Nothing in the text hides how deep the selections are. -/
  count : CountReaches query doc.first.selectionSet
  /-- The first two levels are fields. -/
  fields : ∀ op ∈ doc.operations, ∀ s ∈ op.selectionSet,
    s.isField ∧ ∀ sel ∈ s.selectionSet, sel.isField
  /-- There is no named fragment in the operation. -/
  inView : ∀ op ∈ doc.operations, Selection.inViewList op.selectionSet
  /-- The variables have no keys in them. -/
  values : ∀ op ∈ doc.operations, ∀ a ∈ Selection.argumentsInList op.selectionSet,
    Known (op.values vars) a
  /-- No bound of a condition is a variable. -/
  bounds : ∀ op ∈ doc.operations,
    BoundsGiven cfg.toGuardConfig (Selection.nodesOfList op.selectionSet)

/-! ## 3. Expanding field by field -/

theorem argumentsIn_subset_of_mem {ss : List Selection} {s : Selection} (hs : s ∈ ss) :
    s.argumentsIn ⊆ Selection.argumentsInList ss := by
  rw [argumentsInList_eq_flatMap]
  exact fun a ha => List.mem_flatMap.mpr ⟨s, hs, ha⟩

theorem selection_mem_nodesOfList {ss : List Selection} {s : Selection} (hs : s ∈ ss) :
    .selection s ∈ Selection.nodesOfList ss := by
  rw [nodesOfList_eq_flatMap]
  exact List.mem_flatMap.mpr ⟨s, hs, List.mem_append_right _ (List.mem_singleton_self _)⟩

theorem BoundsGiven.subset {cfg : GuardConfig} {ns ms : List Node} (h : BoundsGiven cfg ns)
    (hsub : ms ⊆ ns) : BoundsGiven cfg ms := by
  intro c hc
  obtain ⟨n, hn, hnc⟩ := List.mem_filterMap.mp hc
  exact h c (List.mem_filterMap.mpr ⟨n, hsub hn, hnc⟩)

/-- Selections in view whose arguments `τ` replaces. -/
structure Clear (cfg : GuardConfig) (σ : Values) (τ : String → Value) (ss : List Selection) :
    Prop where
  inView : Selection.inViewList ss
  arguments : ∀ a ∈ Selection.argumentsInList ss, Fits σ τ a
  bounds : BoundsGiven cfg (Selection.nodesOfList ss)

section
variable {cfg : GateConfig} {σ : Values} {τ : String → Value} {ss : List Selection}
variable {name : String} {arguments : List Argument} {directives : List Directive}
variable {selectionSet : List Selection}

theorem Clear.boundsGiven (h : Clear cfg.toGuardConfig σ τ ss)
    (hs : .field name arguments directives selectionSet ∈ ss) :
    BoundsGiven cfg.toGuardConfig (Selection.field name arguments directives selectionSet).nodes :=
  h.bounds.subset (Selection.closed_nodesOfList ss _ (selection_mem_nodesOfList hs))

/-- What is below a field of clear selections is clear. -/
theorem Clear.below (h : Clear cfg.toGuardConfig σ τ ss)
    (hs : .field name arguments directives selectionSet ∈ ss) :
    Clear cfg.toGuardConfig σ τ selectionSet where
  inView := by
    have hall := h.inView
    rw [inViewList_eq_all] at hall
    have hfield : (Selection.field name arguments directives selectionSet).inView :=
      List.all_eq_true.mp hall _ hs
    exact hfield
  arguments a ha := h.arguments a (argumentsIn_subset_of_mem hs (List.mem_append_right _ ha))
  bounds := (h.boundsGiven hs).subset (List.subset_append_right _ _)

/-- The expansion of clear fields, field by field. -/
theorem Clear.of_mem_expandList (h : Clear cfg.toGuardConfig σ τ ss)
    (hτ : ∀ x, (τ x).nodes = []) (hfields : ∀ s ∈ ss, s.isField)
    {fragments : String → List Selection} {t : Selection}
    (ht : t ∈ Selection.expandList σ fragments ss) :
    ∃ s ∈ ss, Replaces τ s t ∧ Clear cfg.toGuardConfig σ τ s.selectionSet ∧
      BoundsGiven cfg.toGuardConfig s.nodes ∧
      t.selectionSet = Selection.expandList σ fragments s.selectionSet := by
  rw [expandList_eq_flatMap] at ht
  obtain ⟨s, hs, ht⟩ := List.mem_flatMap.mp ht
  have hfield := hfields s hs
  cases s with
  | field name arguments directives selectionSet =>
    rw [Selection.expand, List.mem_singleton] at ht
    subst ht
    have hbelow := h.below hs
    have hset := seen_expandList fragments selectionSet hbelow.inView hbelow.arguments hτ
    have hargs := argumentsIn_subset_of_mem hs
    rw [Selection.argumentsIn] at hargs
    have hreplaces := replaces_field name hτ
      (fun a ha => h.arguments a (hargs (List.mem_append_left _ ha))) hset
    exact ⟨_, hs, hreplaces, hbelow, h.boundsGiven hs, rfl⟩
  | fragmentSpread name directives => cases hfield
  | inlineFragment directives selectionSet => cases hfield

theorem expandList_ne_nil {fragments : String → List Selection} {sels : List Selection}
    (hne : sels ≠ []) (hfields : ∀ sel ∈ sels, sel.isField) :
    Selection.expandList σ fragments sels ≠ [] := by
  cases sels with
  | nil => exact absurd rfl hne
  | cons sel sels =>
    have hsel := hfields sel List.mem_cons_self
    cases sel with
    | field name arguments directives selectionSet =>
      simp [Selection.expandList, Selection.expand]
    | fragmentSpread name directives => cases hsel
    | inlineFragment directives selectionSet => cases hsel

/-- The selections of a clear operation keep the limits expanded. -/
theorem Clear.selectionsOk_expandList (h : Clear cfg.toGuardConfig σ τ ss)
    (hτ : ∀ x, (τ x).nodes = [])
    (hfields : ∀ s ∈ ss, s.isField ∧ ∀ sel ∈ s.selectionSet, sel.isField)
    (fragments : String → List Selection) (hok : SelectionsOk cfg ss) :
    SelectionsOk cfg (Selection.expandList σ fragments ss) := by
  intro t ht
  obtain ⟨s, hs, -, hbelow, -, hset⟩ :=
    h.of_mem_expandList hτ (fun s hs => (hfields s hs).1) ht
  obtain ⟨hne, hsels⟩ := hok s hs
  have hsub := (hfields s hs).2
  rw [hset]
  refine ⟨expandList_ne_nil hne hsub, fun sel' hsel' => ?_⟩
  obtain ⟨sel, hsel, hreplaces, -, hbounds, -⟩ := hbelow.of_mem_expandList hτ hsub hsel'
  exact keepsLimits_replace hτ hreplaces hbounds (hsels sel hsel)

end

/-! ## 4. The gate -/

/-- The values of the variables that are used. -/
def Operation.used (op : Operation) (vars : List (String × Value)) (x : String) : Value :=
  if ∃ a ∈ Selection.argumentsInList op.selectionSet, x ∈ a.value.vars then
    (op.values vars x).getD (.literal none)
  else .literal none

section
variable {cfg : GateConfig} {query : String} {vars : List (String × Value)} {doc : Document}
variable {op : Operation}

theorem InSight.fits (h : InSight cfg query vars doc) (hop : op ∈ doc.operations) (a : Argument)
    (ha : a ∈ Selection.argumentsInList op.selectionSet) :
    Fits (op.values vars) (op.used vars) a := by
  have hknown := h.values op hop a ha
  by_cases hopt : a.isOptional
  · right
    obtain ⟨x, hx⟩ := Value.isVar_iff.mp (Argument.isOptional_iff.mp hopt).2
    refine ⟨hopt, fun v hv => ?_⟩
    rw [hx, Value.subst] at hv
    have hxv := hknown x (by rw [hx]; exact List.mem_singleton_self x)
    rw [hv] at hxv
    exact hxv
  · left
    refine Value.subst_eq_replace a.value fun x hx => ?_
    have hxv := hknown x hx
    rw [Operation.used, if_pos ⟨a, ha, hx⟩]
    cases hσ : op.values vars x with
    | none =>
      rw [hσ] at hxv
      exact absurd hxv hopt
    | some v => rfl

theorem InSight.clear (h : InSight cfg query vars doc) (hop : op ∈ doc.operations) :
    Clear cfg.toGuardConfig (op.values vars) (op.used vars) op.selectionSet where
  inView := h.inView op hop
  arguments := h.fits hop
  bounds := h.bounds op hop

theorem InSight.nodes_used (h : InSight cfg query vars doc) (hop : op ∈ doc.operations)
    (x : String) : (op.used vars x).nodes = [] := by
  unfold Operation.used
  split
  · rename_i hused
    obtain ⟨a, ha, hx⟩ := hused
    have hxv := h.values op hop a ha x hx
    cases hσ : op.values vars x with
    | none => rfl
    | some v =>
      rw [hσ] at hxv
      exact hxv
  · rfl

theorem InSight.first (h : InSight cfg query vars doc) (hop : op ∈ doc.operations) :
    doc.first.selectionSet = op.selectionSet := by
  obtain ⟨d, hd, hdop⟩ := List.mem_filterMap.mp hop
  rcases List.mem_cons.mp hd with rfl | hrest
  · cases hfirst : doc.first with
    | query variableDefinitions selectionSet =>
      rw [hfirst] at hdop
      cases hdop
      rfl
    | fragment name selectionSet =>
      rw [hfirst] at hdop
      cases hdop
    | other =>
      rw [hfirst] at hdop
      cases hdop
  · rw [h.single d hrest] at hdop
    cases hdop

theorem countReaches_of_shows (h : Shows query doc) :
    CountReaches query doc.first.selectionSet := by
  intro limit hcheck
  rw [checkBrackets_of_shows h limit, Bool.and_eq_true, decide_eq_true_eq] at hcheck
  exact hcheck.1

end

/-- A request in sight does not bypass the gate. -/
theorem gate_not_bypassed {gql : String → Option Document} {cfg : GateConfig} {query : String}
    {vars : List (String × Value)}
    (h : ∀ doc, gql query = some doc → InSight cfg query vars doc) :
    NotBypassed gql cfg query vars := by
  intro doc hdoc hlist hforwarded op hop text htext hshows
  have hsight := h doc hdoc
  obtain ⟨-, hbrackets, hselections⟩ :=
    (handleGraphQLQuery_forwarded_iff cfg hdoc hlist).mp hforwarded
  have hclear := hsight.clear hop
  -- the brackets: the expansion is not deeper than the operation, which the loop has counted
  have hdeep : 1 + Selection.nestingOfList (doc.expand vars op) ≤ cfg.depthLimit + 2 := by
    have hexpand : Selection.nestingOfList (doc.expand vars op) ≤
        Selection.nestingOfList op.selectionSet := nesting_expandList _ _ hclear.inView
    have hcounted := hsight.count (cfg.depthLimit + 2) hbrackets
    rw [hsight.first hop] at hcounted
    omega
  have hbrackets' : checkBrackets (cfg.depthLimit + 2) text.toList 0 false := by
    refine (checkBrackets_of_shows hshows (cfg.depthLimit + 2)).trans ?_
    rw [Bool.and_eq_true, decide_eq_true_eq]
    exact ⟨hdeep, rfl⟩
  -- the limits of the fields
  rw [hsight.first hop] at hselections
  have hselections' : SelectionsOk cfg (doc.expand vars op) :=
    hclear.selectionsOk_expandList (hsight.nodes_used hop) (hsight.fields op hop) _ hselections
  cases hlist' : whitelisted cfg text with
  | true => simp [handleGraphQLQuery, htext, hlist', Document.expansion, Document.definitions,
      Definition.isOther]
  | false =>
    refine (handleGraphQLQuery_forwarded_iff cfg htext hlist').mpr ⟨?_, hbrackets', hselections'⟩
    intro d hd
    rw [List.mem_singleton.mp hd]
    rfl

/-- The limits of `config.json`, with an empty whitelist. -/
def graphiqlApi : GateConfig where
  toGuardConfig := configLists
  depthLimit := 3
  rootWhereDepthLimit := 2
  subWhereDepthLimit := 1
  queryHeightRangeLimit := 10000
  queryWhitelist := []

/-- A parser that knows two texts. -/
def parsed (query text : String) (doc doc' : Document) (q : String) : Option Document :=
  if q = query then some doc else if q = text then some doc' else none

theorem parsed_query (query text : String) (doc doc' : Document) :
    parsed query text doc doc' query = some doc := if_pos rfl

theorem parsed_text {query text : String} (h : text ≠ query) (doc doc' : Document) :
    parsed query text doc doc' text = some doc' := by
  rw [parsed, if_neg h, if_pos rfl]

/-- The attributes between two heights with a value that is a variable, and below them an
inline fragment. -/
def rangeQuery : String :=
  "query Q($v: String) \x7b auratestnet \x7b event_attribute(where: \x7bblock_height: " ++
    "\x7b_gte: 1, _lte: 100\x7d, value: \x7b_eq: $v\x7d\x7d) \x7b event \x7b " ++
    "... on event \x7b id \x7d \x7d \x7d \x7d \x7d"

def rangeDocument : Document where
  first := .query [⟨"v", none⟩] [.field "auratestnet" [] [] [.field "event_attribute"
    [⟨"where", .object
      [("block_height", .object [("_gte", .literal (some 1)), ("_lte", .literal (some 100))]),
        ("value", .object [("_eq", .var "v")])]⟩] []
    [.field "event" [] [] [.inlineFragment [] [.field "id" [] [] []]]]]]
  rest := []

def rangeOperation : Operation :=
  ⟨[⟨"v", none⟩], rangeDocument.first.selectionSet⟩

/-- The variable is a text. -/
def rangeVars : List (String × Value) := [("v", .literal none)]

def rangeExpanded : String :=
  "query \x7b auratestnet \x7b event_attribute(where: \x7bblock_height: " ++
    "\x7b_gte: 1, _lte: 100\x7d, value: \x7b_eq: \"transfer\"\x7d\x7d) " ++
    "\x7b event \x7b id \x7d \x7d \x7d \x7d"

def rangeParsed : String → Option Document :=
  parsed rangeQuery rangeExpanded rangeDocument
    (rangeDocument.expansion rangeVars rangeOperation)

theorem inSight_range : InSight graphiqlApi rangeQuery rangeVars rangeDocument where
  single := by simp [rangeDocument]
  count := by
    apply countReaches_of_shows
    unfold Shows
    decide +kernel
  fields := by
    intro op hop
    obtain rfl : op = rangeOperation := List.mem_singleton.mp hop
    simp [rangeOperation, rangeDocument, Definition.selectionSet, Selection.isField,
      Selection.selectionSet]
  inView := by
    intro op hop
    obtain rfl : op = rangeOperation := List.mem_singleton.mp hop
    rfl
  values := by
    intro op hop a ha x hx
    obtain rfl : op = rangeOperation := List.mem_singleton.mp hop
    obtain rfl := List.mem_singleton.mp ha
    obtain rfl : x = "v" := List.mem_singleton.mp hx
    exact rfl
  bounds := by
    intro op hop c hc
    obtain rfl : op = rangeOperation := List.mem_singleton.mp hop
    obtain rfl := List.mem_singleton.mp hc
    rfl

/-- The request is in sight, and its expansion is forwarded too. -/
theorem gate_not_bypassed_range :
    handleGraphQLQuery graphiqlApi rangeParsed rangeQuery = .forwarded ∧
      handleGraphQLQuery graphiqlApi rangeParsed rangeExpanded = .forwarded := by
  have hforwarded : handleGraphQLQuery graphiqlApi rangeParsed rangeQuery = .forwarded := by
    decide +kernel
  have hquery : rangeParsed rangeQuery = some rangeDocument := parsed_query ..
  have hexpanded : rangeParsed rangeExpanded =
      some (rangeDocument.expansion rangeVars rangeOperation) :=
    parsed_text (by decide +kernel) ..
  refine ⟨hforwarded, ?_⟩
  refine @gate_not_bypassed _ _ _ rangeVars ?_ rangeDocument hquery rfl hforwarded
    rangeOperation List.mem_cons_self rangeExpanded hexpanded ?_
  · intro doc hdoc
    rw [hquery] at hdoc
    cases hdoc
    exact inSight_range
  · unfold Shows
    decide +kernel

/-- The attributes without a condition, inside a fragment. -/
def fragmentQuery : String :=
  "query Q \x7b auratestnet \x7b ...F \x7d \x7d " ++
    "fragment F on auratestnet \x7b event_attribute \x7b block_height \x7d \x7d"

def fragmentDocument : Document where
  first := .query [] [.field "auratestnet" [] [] [.fragmentSpread "F" []]]
  rest := [.fragment "F" [.field "event_attribute" [] [] [.field "block_height" [] [] []]]]

def fragmentOperation : Operation :=
  ⟨[], fragmentDocument.first.selectionSet⟩

def fragmentExpanded : String :=
  "query \x7b auratestnet \x7b event_attribute \x7b block_height \x7d \x7d \x7d"

def fragmentParsed : String → Option Document :=
  parsed fragmentQuery fragmentExpanded fragmentDocument
    (fragmentDocument.expansion [] fragmentOperation)

/-- A field that is refused passes inside a fragment. -/
theorem fragment_bypasses : ¬ NotBypassed fragmentParsed graphiqlApi fragmentQuery [] := by
  intro h
  have hforwarded : handleGraphQLQuery graphiqlApi fragmentParsed fragmentQuery = .forwarded := by
    decide +kernel
  have hexpanded : fragmentParsed fragmentExpanded =
      some (fragmentDocument.expansion [] fragmentOperation) :=
    parsed_text (by decide +kernel) ..
  have hshows : Shows fragmentExpanded (fragmentDocument.expansion [] fragmentOperation) := by
    unfold Shows
    decide +kernel
  have halone := h fragmentDocument (parsed_query ..) rfl hforwarded fragmentOperation
    List.mem_cons_self fragmentExpanded hexpanded hshows
  have hrefused : handleGraphQLQuery graphiqlApi fragmentParsed fragmentExpanded =
      .wrong (.heightCondition graphiqlApi.models) := by
    decide +kernel
  rw [hrefused] at halone
  cases halone

end Erascope.Graphql
