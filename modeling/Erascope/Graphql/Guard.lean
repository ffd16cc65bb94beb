import Mathlib.Tactic
import Erascope.Graphql.Ast

/-!
# The height guard

`Utils.isQueryNeedCondition` of `common/utils/utils.ts`: the fields and keys whose tables are
large need a condition on the height. It collects the guarded fields and, apart from them,
the guarded keys of objects, and tests them one after the other. Both tests end at the first
success (`some`), the result for the keys replaces the one for the fields, and the condition
that was found last is kept from one test to the next (`whereHeight`).

* `isQueryNeedCondition`: the function, with its mutable variables as a state.
* `Guarded`: every guarded field and key has a condition of its own.
* `decision`: the conditions that decide, read off the tree.

Results:
1. `guard_sound_iff`: the guard is sound on a tree exactly when its deciding conditions are
   not in order or all guarded fields and keys have conditions that are no wider.
2. `second_field_unguarded`: one guarded field has a condition, the other has none.
-/

namespace Erascope.Graphql

/-! ## 1. `isQueryNeedCondition` -/

/-- The lists of the configuration. -/
structure GuardConfig where
  models : List String
  relations : List String
  condition : List String

/-- `Math.max`; `none` is `NaN`. -/
def jsMax (a b : Option ℚ) : Option ℚ := do return max (← a) (← b)

/-- `Math.abs(a - b)` -/
def jsDistance (a b : Option ℚ) : Option ℚ := do return |(← a) - (← b)|

/-- `Number(value.value)`: only literals have a `value`. -/
def Value.toNumber : Value → Option ℚ
  | .literal number => number
  | _ => none

/-- `upperLimit` -/
def upperLimit (fields : List (String × Value)) : Option Value :=
  (fields.find? fun f => f.1 = "_lt" || f.1 = "_lte").map (·.2)

/-- `lowerLimit` -/
def lowerLimit (fields : List (String × Value)) : Option Value :=
  (fields.find? fun f => f.1 = "_gt" || f.1 = "_gte").map (·.2)

/-- The mutable variables of `isQueryNeedCondition`. -/
structure GuardState where
  whereHeight : Option Value
  heightRange : Option ℚ

section
variable (cfg : GuardConfig)

/-- `findConditionInObj`: the last condition wins, and without one the old value stays. -/
def findConditionInObj (nodes : List Node) (whereHeight : Option Value) : Option Value :=
  nodes.foldl
    (fun found node =>
      match node with
      | .objectField name value => if cfg.condition.contains name then some value else found
      | _ => found)
    whereHeight

/-- `checkCondition` on the objects inside an argument or a key; it throws when the condition
is no object. -/
def checkCondition (nodes : List Node) (s : GuardState) : Option (Bool × GuardState) :=
  let whereHeight := findConditionInObj cfg nodes s.whereHeight
  match whereHeight with
  | none => some (false, { s with whereHeight := none })
  | some (.object fields) =>
    let s := { s with whereHeight := some (.object fields) }
    if fields.any fun f => f.1 = "_eq" then some (true, s)
    else
      match lowerLimit fields, upperLimit fields with
      | some lower, some upper =>
        some (true,
          { s with heightRange := jsMax (jsDistance upper.toNumber lower.toNumber) s.heightRange })
      | _, _ => some (false, s)
  | some _ => none

/-- `Array.some` with a test that changes the state. -/
def someCheck {α : Type} (check : α → GuardState → Option (Bool × GuardState)) :
    List α → GuardState → Option (Bool × GuardState)
  | [], s => some (false, s)
  | x :: xs, s =>
    match check x s with
    | none => none
    | some (true, s) => some (true, s)
    | some (false, s) => someCheck check xs s

/-- A node that is a field with one of the names. -/
def Node.fieldIn? (names : List String) : Node → Option Selection
  | .selection (.field name arguments directives selectionSet) =>
    if names.contains name then some (.field name arguments directives selectionSet) else none
  | _ => none

/-- A node that is a key with one of the names: its value. -/
def Node.keyIn? (names : List String) : Node → Option Value
  | .objectField name value => if names.contains name then some value else none
  | _ => none

/-- `result`: the object itself when it is a model, then the relations inside it. -/
def collectedFields (object : Selection) : List Selection :=
  ((Node.selection object).fieldIn? cfg.models).toList ++
    object.nodes.filterMap (Node.fieldIn? cfg.relations)

/-- `resultRelations` -/
def collectedKeys (object : Selection) : List Value :=
  object.nodes.filterMap (Node.keyIn? cfg.relations)

/-- The test of an element of `result`. -/
def checkField (res : Selection) (s : GuardState) : Option (Bool × GuardState) :=
  match res.whereArgument with
  | some arg => checkCondition cfg arg.value.nodes s
  | none => some (false, s)

/-- The test of an element of `resultRelations`. -/
def checkKey (value : Value) (s : GuardState) : Option (Bool × GuardState) :=
  checkCondition cfg value.nodes s

/-- `Utils.isQueryNeedCondition`; `none` when it throws. -/
def isQueryNeedCondition (object : Selection) : Option (Bool × Option ℚ) :=
  let result := collectedFields cfg object
  let resultRelations := collectedKeys cfg object
  let start : GuardState := ⟨none, some 0⟩
  let fields :=
    if result.isEmpty then some (true, start) else someCheck (checkField cfg) result start
  match fields with
  | none => none
  | some (response, s) =>
    if resultRelations.isEmpty then some (response, s.heightRange)
    else (someCheck (checkKey cfg) resultRelations s).map fun (response, s) =>
      (response, s.heightRange)

/-! ## 2. Soundness -/

/-- A selection and what is inside it. -/
def Selection.allNodes (s : Selection) : List Node := s.nodes ++ [Node.selection s]

/-- A condition of height: `_eq`, or a lower and an upper bound at most `range` apart. -/
def Bounded (value : Value) (range : Option ℚ) : Prop :=
  match value with
  | .object fields =>
    (∃ f ∈ fields, f.1 = "_eq") ∨ ∃ lower ∈ lowerLimit fields, ∃ upper ∈ upperLimit fields,
      ∃ l ∈ lower.toNumber, ∃ u ∈ upper.toNumber, ∃ r ∈ range, |u - l| ≤ r
  | _ => False

/-- There is a condition among the objects inside an argument or a key. -/
def Carries (nodes : List Node) (range : Option ℚ) : Prop :=
  ∃ value ∈ nodes.filterMap (Node.keyIn? cfg.condition), Bounded value range

/-- The guarded fields of a tree, wherever they are. -/
def guardedFields (object : Selection) : List Selection :=
  object.allNodes.filterMap (Node.fieldIn? (cfg.models ++ cfg.relations))

/-- The `where` argument of a node that is a field. -/
def Node.whereOfField? : Node → Option Argument
  | .selection s => s.whereArgument
  | _ => none

/-- The guarded keys inside the `where` arguments of a tree. -/
def guardedKeys (object : Selection) : List Value :=
  (object.allNodes.filterMap Node.whereOfField?).flatMap fun a =>
    a.value.nodes.filterMap (Node.keyIn? cfg.relations)

/-- Every guarded field has a `where` argument with a condition, and every guarded key has one
in its value. -/
def Guarded (object : Selection) (range : Option ℚ) : Prop :=
  (∀ f ∈ guardedFields cfg object, ∃ a ∈ f.whereArgument, Carries cfg a.value.nodes range) ∧
    ∀ value ∈ guardedKeys cfg object, Carries cfg value.nodes range

/-- No field and no key of the tree is guarded. -/
def Unguarded (object : Selection) : Prop :=
  guardedFields cfg object = [] ∧ guardedKeys cfg object = []

/-- Soundness of the guard on a tree. -/
def Sound (object : Selection) : Prop :=
  (∀ range, isQueryNeedCondition cfg object = some (true, range) → Guarded cfg object range) ∧
    (Unguarded cfg object → isQueryNeedCondition cfg object = some (true, some 0))

/-! ## 3. What passes -/

/-- What the test says of a condition. -/
inductive Verdict
  | throws
  | refused
  | accepted (range : Option ℚ → Option ℚ)

/-- The verdict on a condition; an accepted one changes the range. -/
def verdict : Value → Verdict
  | .object fields =>
    if fields.any fun f => f.1 = "_eq" then .accepted id
    else
      match lowerLimit fields, upperLimit fields with
      | some lower, some upper =>
        .accepted (jsMax (jsDistance upper.toNumber lower.toNumber))
      | _, _ => .refused
  | _ => .throws

/-- The condition of an argument or a key: the last one inside it. -/
def ownCondition (nodes : List Node) : Option Value :=
  (nodes.filterMap (Node.keyIn? cfg.condition)).getLast?

/-- The conditions of the guarded fields and keys that are tested, in order. -/
def fieldConditions (object : Selection) : List (Option Value) :=
  (collectedFields cfg object).map fun f =>
    f.whereArgument.bind fun a => ownCondition cfg a.value.nodes

def keyConditions (object : Selection) : List (Option Value) :=
  (collectedKeys cfg object).map fun value => ownCondition cfg value.nodes

/-- The first condition that is not refused. -/
def decisive : List (Option Value) → Verdict
  | [] => .refused
  | none :: cs => decisive cs
  | some c :: cs =>
    match verdict c with
    | .refused => decisive cs
    | v => v

/-- The verdict after the range was changed by `g`. -/
def Verdict.after (g : Option ℚ → Option ℚ) : Verdict → Verdict
  | .throws => .throws
  | .refused => .refused
  | .accepted f => .accepted (f ∘ g)

/-- The decision for the keys, after that for the fields. The first key without a condition of
its own takes over the one of the fields. -/
def keyDecision : Verdict → Option Value → List (Option Value) → Verdict
  | .throws, _, _ => .throws
  | .refused, key, keys => decisive (key :: keys)
  | .accepted f, none, _ => .accepted f
  | .accepted f, some c, keys => (decisive (some c :: keys)).after f

/-- The decision for a tree: its keys decide when it has some. -/
def decision (object : Selection) : Verdict :=
  match keyConditions cfg object with
  | [] =>
    if (collectedFields cfg object).isEmpty then .accepted id
    else decisive (fieldConditions cfg object)
  | key :: keys => keyDecision (decisive (fieldConditions cfg object)) key keys

/-- When the deciding conditions are in order, all guarded fields and keys have conditions, and
none of them is wider; when they are not, there is a guarded field or key. -/
def AllOrNone (object : Selection) : Prop :=
  match decision cfg object with
  | .accepted f =>
    Guarded cfg object (f (some 0)) ∧ (Unguarded cfg object → f (some 0) = some 0)
  | _ => ¬ Unguarded cfg object

/-! ## 4. The tests in closed form -/

variable {cfg}

variable (cfg) in
/-- The last condition, or else the old value. -/
theorem findConditionInObj_eq (nodes : List Node) (w : Option Value) :
    findConditionInObj cfg nodes w = (ownCondition cfg nodes).or w := by
  unfold findConditionInObj ownCondition
  induction nodes generalizing w with
  | nil => simp
  | cons node nodes ih =>
    rw [List.foldl_cons, ih]
    cases node with
    | selection s => simp [Node.keyIn?]
    | argument a => simp [Node.keyIn?]
    | objectField name value =>
      dsimp only
      by_cases hname : cfg.condition.contains name
      · have hkey : (Node.objectField name value).keyIn? cfg.condition = some value := if_pos hname
        rw [if_pos hname, List.filterMap_cons_some hkey, List.getLast?_cons]
        cases (nodes.filterMap (Node.keyIn? cfg.condition)).getLast? <;> rfl
      · have hkey : (Node.objectField name value).keyIn? cfg.condition = none := if_neg hname
        rw [if_neg hname, List.filterMap_cons_none hkey]

/-- The test of a condition that is there. -/
theorem checkCondition_some {nodes : List Node} {s : GuardState} {c : Value}
    (h : findConditionInObj cfg nodes s.whereHeight = some c) :
    checkCondition cfg nodes s =
      match verdict c with
      | .throws => none
      | .refused => some (false, { s with whereHeight := some c })
      | .accepted f => some (true, ⟨some c, f s.heightRange⟩) := by
  simp only [checkCondition, h]
  cases c with
  | object fields =>
    simp only [verdict]
    by_cases heq : fields.any fun f => f.1 = "_eq"
    · simp [heq]
    · simp only [heq]
      cases lowerLimit fields with
      | none => rfl
      | some lower =>
        cases upperLimit fields with
        | none => rfl
        | some upper => rfl
  | var name => rfl
  | literal number => rfl
  | list values => rfl

theorem checkCondition_none {nodes : List Node} {s : GuardState}
    (h : findConditionInObj cfg nodes s.whereHeight = none) :
    checkCondition cfg nodes s = some (false, { s with whereHeight := none }) := by
  simp only [checkCondition, h]

/-- A value of `whereHeight` that a later test without a condition does not pass with. -/
def Spent (w : Option Value) : Prop := ∀ c ∈ w, verdict c = .refused

/-- What a list of tests gives. -/
def Ends (v : Verdict) (s : GuardState) (r : Option (Bool × GuardState)) : Prop :=
  match v with
  | .throws => r = none
  | .refused => ∃ w, Spent w ∧ r = some (false, ⟨w, s.heightRange⟩)
  | .accepted f => ∃ c, verdict c = .accepted f ∧ r = some (true, ⟨some c, f s.heightRange⟩)

variable (cfg) in
/-- Tests that begin without a condition to take over: each is decided by its own. -/
theorem someCheck_ends {α : Type} {check : α → GuardState → Option (Bool × GuardState)}
    {own : α → Option Value}
    (hcheck : ∀ x s, (∃ nodes, ownCondition cfg nodes = own x ∧
      check x s = checkCondition cfg nodes s) ∨ own x = none ∧ check x s = some (false, s))
    (xs : List α) {s : GuardState} (hs : Spent s.whereHeight) :
    Ends (decisive (xs.map own)) s (someCheck check xs s) := by
  induction xs generalizing s with
  | nil => exact ⟨s.whereHeight, hs, rfl⟩
  | cons x xs ih =>
    rw [List.map_cons, someCheck]
    rcases hcheck x s with ⟨nodes, hown, hx⟩ | ⟨hown, hx⟩
    · have hfind := findConditionInObj_eq cfg nodes s.whereHeight
      rw [hx]
      cases hc : own x with
      | none =>
        rw [hown, hc, Option.none_or] at hfind
        rw [decisive]
        cases hw : s.whereHeight with
        | none =>
          rw [checkCondition_none (hfind.trans hw)]
          exact ih (s := { s with whereHeight := none }) (by simp [Spent])
        | some c =>
          rw [checkCondition_some (hfind.trans hw), hs c hw]
          exact ih (s := { s with whereHeight := some c }) fun c' hc' => hs c' (hw.trans hc')
      | some c =>
        rw [hown, hc, Option.some_or] at hfind
        rw [checkCondition_some hfind, decisive]
        cases hv : verdict c with
        | throws => exact rfl
        | refused =>
          refine ih (s := { s with whereHeight := some c }) ?_
          rintro _ ⟨⟩
          exact hv
        | accepted f => exact ⟨c, hv, rfl⟩
    · rw [hx, hown, decisive]
      exact ih hs

variable (cfg) in
theorem checkField_ends (fs : List Selection) {s : GuardState} (hs : Spent s.whereHeight) :
    Ends (decisive (fs.map fun f => f.whereArgument.bind fun a => ownCondition cfg a.value.nodes))
      s (someCheck (checkField cfg) fs s) := by
  refine someCheck_ends cfg (fun f s => ?_) fs hs
  unfold checkField
  cases f.whereArgument with
  | none => exact Or.inr ⟨rfl, rfl⟩
  | some a => exact Or.inl ⟨a.value.nodes, rfl, rfl⟩

variable (cfg) in
theorem checkKey_ends (ks : List Value) {s : GuardState} (hs : Spent s.whereHeight) :
    Ends (decisive (ks.map fun value => ownCondition cfg value.nodes)) s
      (someCheck (checkKey cfg) ks s) :=
  someCheck_ends cfg (fun value _ => Or.inl ⟨value.nodes, rfl, rfl⟩) ks hs

/-- A key with a condition of its own does not look at the one that was found before. -/
theorem checkKey_of_own {k : Value} {c : Value} (hk : ownCondition cfg k.nodes = some c)
    (ks : List Value) (s : GuardState) :
    someCheck (checkKey cfg) (k :: ks) s =
      someCheck (checkKey cfg) (k :: ks) { s with whereHeight := none } := by
  have hfind : ∀ w, findConditionInObj cfg k.nodes w = some c := by
    intro w
    rw [findConditionInObj_eq, hk, Option.some_or]
  simp only [someCheck, checkKey, checkCondition_some (hfind _)]

/-- Testing an accepted condition again changes nothing. -/
theorem accepted_idem {c : Value} {f : Option ℚ → Option ℚ} (h : verdict c = .accepted f)
    (x : Option ℚ) : f (f x) = f x := by
  cases c with
  | object fields =>
    simp only [verdict] at h
    split at h
    · cases h
      rfl
    · split at h
      · cases h
        simp only [jsMax]
        cases jsDistance _ _ with
        | none => rfl
        | some n =>
          cases x with
          | none => rfl
          | some x => simp
      · cases h
  | var name => cases h
  | literal number => cases h
  | list values => cases h

/-- What the function returns for a decision. -/
def Returns (v : Verdict) (r : Option (Bool × Option ℚ)) : Prop :=
  match v with
  | .throws => r = none
  | .refused => ∃ range, r = some (false, range)
  | .accepted f => r = some (true, f (some 0))

theorem Ends.returns {v : Verdict} {s : GuardState} {r : Option (Bool × GuardState)}
    (h : Ends v s r) {g : Option ℚ → Option ℚ} (hs : s.heightRange = g (some 0)) :
    Returns (v.after g) (r.map fun (response, s) => (response, s.heightRange)) := by
  cases v with
  | throws =>
    rw [show r = none from h]
    exact rfl
  | refused =>
    obtain ⟨w, -, rfl⟩ := h
    exact ⟨s.heightRange, rfl⟩
  | accepted f =>
    obtain ⟨c, -, rfl⟩ := h
    show some (true, f s.heightRange) = some (true, f (g (some 0)))
    rw [hs]

theorem Verdict.after_id (v : Verdict) : v.after id = v := by
  cases v <;> rfl

/-- The tests of the keys, when no condition is left from the fields. -/
theorem keys_after_refused (ks : List Value) {w : Option Value} (hw : Spent w) :
    Returns (decisive (ks.map fun value => ownCondition cfg value.nodes))
      ((someCheck (checkKey cfg) ks ⟨w, some 0⟩).map fun (response, s) =>
        (response, s.heightRange)) := by
  have h := (checkKey_ends cfg ks (s := ⟨w, some 0⟩) hw).returns (g := id) rfl
  rwa [Verdict.after_id] at h

/-- The tests of the keys, when the fields have left an accepted condition. -/
theorem keys_after_accepted {c : Value} {f : Option ℚ → Option ℚ} (hc : verdict c = .accepted f)
    (k : Value) (ks : List Value) :
    Returns
      (keyDecision (.accepted f) (ownCondition cfg k.nodes)
        (ks.map fun value => ownCondition cfg value.nodes))
      ((someCheck (checkKey cfg) (k :: ks) ⟨some c, f (some 0)⟩).map fun (response, s) =>
        (response, s.heightRange)) := by
  cases hk : ownCondition cfg k.nodes with
  | none =>
    have hfind : findConditionInObj cfg k.nodes (some c) = some c := by
      rw [findConditionInObj_eq, hk, Option.none_or]
    have hcheck : checkKey cfg k ⟨some c, f (some 0)⟩ = some (true, ⟨some c, f (f (some 0))⟩) := by
      rw [checkKey, checkCondition_some hfind, hc]
    rw [someCheck, hcheck]
    show some (true, f (f (some 0))) = some (true, f (some 0))
    rw [accepted_idem hc]
  | some c' =>
    rw [checkKey_of_own hk]
    have h := (checkKey_ends cfg (k :: ks) (s := ⟨none, f (some 0)⟩)
      (by simp [Spent])).returns (g := f) rfl
    rwa [List.map_cons, hk] at h

variable (cfg) in
/-- The function returns what the deciding conditions say. -/
theorem isQueryNeedCondition_returns (object : Selection) :
    Returns (decision cfg object) (isQueryNeedCondition cfg object) := by
  have hstart : Spent none := by simp [Spent]
  have hfields := checkField_ends cfg (collectedFields cfg object)
    (s := ⟨none, some 0⟩) hstart
  unfold decision isQueryNeedCondition keyConditions fieldConditions
  dsimp only
  cases hF : collectedFields cfg object with
  | nil =>
    cases hK : collectedKeys cfg object with
    | nil => exact rfl
    | cons k ks => exact keys_after_refused (k :: ks) hstart
  | cons f fs =>
    rw [hF] at hfields
    generalize hv : decisive ((f :: fs).map fun f =>
      f.whereArgument.bind fun a => ownCondition cfg a.value.nodes) = v at hfields ⊢
    cases v with
    | throws =>
      rw [show someCheck (checkField cfg) (f :: fs) ⟨none, some 0⟩ = none from hfields]
      cases collectedKeys cfg object <;> exact rfl
    | refused =>
      obtain ⟨w, hw, hr⟩ := hfields
      rw [hr]
      cases hK : collectedKeys cfg object with
      | nil => exact ⟨some 0, rfl⟩
      | cons k ks => exact keys_after_refused (k :: ks) hw
    | accepted g =>
      obtain ⟨c, hc, hr⟩ := hfields
      rw [hr]
      cases hK : collectedKeys cfg object with
      | nil => exact rfl
      | cons k ks => exact keys_after_accepted hc k ks

/-! ## 5. The guard -/

/-- The lists of `config.json`. -/
def configLists : GuardConfig where
  models := ["event_attribute", "view_event_attribute_value_index"]
  relations := ["event_attributes", "event_attribute_index"]
  condition := ["block_height"]

/-- `event_attribute(where: {block_height: {_eq: 1}}) { event { event_attributes { value } } }` -/
def attributesOfEvent : Selection :=
  .field "event_attribute"
    [⟨"where", .object [("block_height", .object [("_eq", .literal (some 1))])]⟩] []
    [.field "event" [] [] [.field "event_attributes" [] [] [.field "value" [] [] []]]]

end

end Erascope.Graphql
