import Mathlib.Tactic
import Erascope.Graphql.Expand
import Erascope.Graphql.Guard

/-!
# The height guard on expanded operations

The conditions that the guard finds in an expanded field are those of the field with their
variables replaced. The verdict on such a condition is the same as long as no bound is a
variable, which the guard would read as `NaN`.

Result: `isQueryNeedCondition_replace`, a field that passes the guard passes it expanded, with
the same range.
-/

namespace Erascope.Graphql

section
variable {τ : String → Value}

/-! ## 1. The conditions, replaced -/

def Seen.keyIn? (names : List String) : Seen → Option Value
  | .key name value => if names.contains name then some value else none
  | _ => none

/-- The condition of a field with one of the names. -/
def Seen.fieldCondition? (cfg : GuardConfig) : Seen → Option (Option Value)
  | .field name w =>
    if cfg.relations.contains name then some (w.bind fun a => ownCondition cfg a.value.nodes)
    else none
  | _ => none

theorem keyIn?_eq (names : List String) (n : Node) :
    n.keyIn? names = n.seen.bind (Seen.keyIn? names) := by
  cases n with
  | selection s => cases s <;> rfl
  | argument a =>
    simp only [Node.keyIn?, Node.seen]
    split <;> rfl
  | objectField name value => rfl

theorem filterMap_keyIn? (names : List String) (nodes : List Node) :
    nodes.filterMap (Node.keyIn? names) = (seen nodes).filterMap (Seen.keyIn? names) := by
  rw [seen, List.filterMap_filterMap]
  exact List.filterMap_congr fun n _ => keyIn?_eq names n

theorem Seen.keyIn?_replace (names : List String) (x : Seen) :
    (x.replace τ).keyIn? names = (x.keyIn? names).map (Value.replace τ) := by
  cases x with
  | field name w => rfl
  | subWhere a => rfl
  | key name value =>
    simp only [Seen.replace, Seen.keyIn?]
    split <;> rfl

theorem filterMap_keyIn?_replace {nodes nodes' : List Node} (names : List String)
    (h : seen nodes' = (seen nodes).map (Seen.replace τ)) :
    nodes'.filterMap (Node.keyIn? names) =
      (nodes.filterMap (Node.keyIn? names)).map (Value.replace τ) := by
  rw [filterMap_keyIn?, filterMap_keyIn?, h, List.filterMap_map, List.map_filterMap]
  exact List.filterMap_congr fun x _ => Seen.keyIn?_replace names x

theorem ownCondition_replace (cfg : GuardConfig) {nodes nodes' : List Node}
    (h : seen nodes' = (seen nodes).map (Seen.replace τ)) :
    ownCondition cfg nodes' = (ownCondition cfg nodes).map (Value.replace τ) := by
  rw [ownCondition, filterMap_keyIn?_replace cfg.condition h, List.getLast?_map, ownCondition]

theorem whereCondition_replace (cfg : GuardConfig) (hτ : ∀ x, (τ x).nodes = [])
    (w : Option Argument) :
    ((w.map (Argument.replace τ)).bind fun a => ownCondition cfg a.value.nodes) =
      (w.bind fun a => ownCondition cfg a.value.nodes).map (Value.replace τ) := by
  cases w with
  | none => rfl
  | some a => exact ownCondition_replace cfg (seen_replace a.value hτ)

theorem keyConditions_replace (cfg : GuardConfig) (hτ : ∀ x, (τ x).nodes = [])
    {object object' : Selection}
    (h : seen object'.nodes = (seen object.nodes).map (Seen.replace τ)) :
    keyConditions cfg object' =
      (keyConditions cfg object).map (Option.map (Value.replace τ)) := by
  rw [keyConditions, keyConditions, collectedKeys, collectedKeys,
    filterMap_keyIn?_replace cfg.relations h, List.map_map, List.map_map]
  exact List.map_congr_left fun v _ => ownCondition_replace cfg (seen_replace v hτ)

/-- The condition in the `where` argument of a field. -/
def whereCondition (cfg : GuardConfig) (f : Selection) : Option Value :=
  f.whereArgument.bind fun a => ownCondition cfg a.value.nodes

theorem fieldIn?_condition (cfg : GuardConfig) (n : Node) :
    (n.fieldIn? cfg.relations).map (whereCondition cfg) =
      n.seen.bind (Seen.fieldCondition? cfg) := by
  cases n with
  | selection s =>
    cases s with
    | field name arguments directives selectionSet =>
      simp only [Node.fieldIn?, Node.seen, Option.bind_some, Seen.fieldCondition?]
      split <;> rfl
    | fragmentSpread name directives => rfl
    | inlineFragment directives selectionSet => rfl
  | argument a =>
    simp only [Node.fieldIn?, Node.seen]
    split <;> rfl
  | objectField name value => rfl

theorem Seen.fieldCondition?_replace (cfg : GuardConfig) (hτ : ∀ x, (τ x).nodes = []) (x : Seen) :
    (x.replace τ).fieldCondition? cfg =
      (x.fieldCondition? cfg).map (Option.map (Value.replace τ)) := by
  cases x with
  | field name w =>
    simp only [Seen.replace, Seen.fieldCondition?, whereCondition_replace cfg hτ]
    split <;> rfl
  | subWhere a => rfl
  | key name value => rfl

theorem relationConditions_replace (cfg : GuardConfig) (hτ : ∀ x, (τ x).nodes = [])
    {nodes nodes' : List Node} (h : seen nodes' = (seen nodes).map (Seen.replace τ)) :
    (nodes'.filterMap (Node.fieldIn? cfg.relations)).map (whereCondition cfg) =
      ((nodes.filterMap (Node.fieldIn? cfg.relations)).map (whereCondition cfg)).map
        (Option.map (Value.replace τ)) := by
  have hseen : ∀ ns : List Node,
      (ns.filterMap (Node.fieldIn? cfg.relations)).map (whereCondition cfg) =
        (seen ns).filterMap (Seen.fieldCondition? cfg) := by
    intro ns
    rw [List.map_filterMap, seen, List.filterMap_filterMap]
    exact List.filterMap_congr fun n _ => fieldIn?_condition cfg n
  rw [hseen, hseen, h, List.filterMap_map, List.map_filterMap]
  exact List.filterMap_congr fun x _ => Seen.fieldCondition?_replace cfg hτ x

theorem rootConditions_replace (cfg : GuardConfig) (hτ : ∀ x, (τ x).nodes = []) {s t : Selection}
    (h : Replaces τ s t) :
    ((Node.selection t).fieldIn? cfg.models).toList.map (whereCondition cfg) =
      (((Node.selection s).fieldIn? cfg.models).toList.map (whereCondition cfg)).map
        (Option.map (Value.replace τ)) := by
  have hcondition : whereCondition cfg t = (whereCondition cfg s).map (Value.replace τ) := by
    rw [whereCondition, h.whereArgument]
    exact whereCondition_replace cfg hτ s.whereArgument
  have hroot : ∀ u : Selection, (Node.selection u).fieldIn? cfg.models =
      if u.fieldName?.any cfg.models.contains then some u else none := by
    intro u
    cases u <;> rfl
  rw [hroot, hroot, h.fieldName]
  split
  · exact congrArg (fun c => [c]) hcondition
  · rfl

/-- The conditions of the fields, replaced. -/
theorem fieldConditions_replace (cfg : GuardConfig) (hτ : ∀ x, (τ x).nodes = []) {s t : Selection}
    (h : Replaces τ s t) :
    fieldConditions cfg t = (fieldConditions cfg s).map (Option.map (Value.replace τ)) := by
  have hroot := rootConditions_replace cfg hτ h
  have hinner := relationConditions_replace cfg hτ h.nodes
  unfold fieldConditions collectedFields
  rw [List.map_append, List.map_append, List.map_append]
  exact congrArg₂ (· ++ ·) hroot hinner

/-! ## 2. The verdicts -/

/-- The keys of a lower and an upper bound. -/
def isBound (name : String) : Bool :=
  name = "_gt" || name = "_gte" || name = "_lt" || name = "_lte"

/-- No bound of a condition is a variable; the guard would read it as `NaN`. -/
def Value.boundsGiven : Value → Bool
  | .object fields => fields.all fun f => !(isBound f.1 && f.2.isVar)
  | _ => true

theorem toNumber_replace {v : Value} (h : v.isVar = false) :
    (v.replace τ).toNumber = v.toNumber := by
  cases v with
  | var name => cases h
  | literal number => rfl
  | list values => rfl
  | object fields => rfl

/-- The limit that is found among replaced keys. -/
theorem find?_replaceFields (p : String → Bool) (fields : List (String × Value)) :
    ((Value.replaceFields τ fields).find? fun f => p f.1).map (·.2) =
      ((fields.find? fun f => p f.1).map (·.2)).map (Value.replace τ) := by
  rw [Value.replaceFields_eq_map, List.find?_map, Option.map_map, Option.map_map]
  rfl

theorem not_var_of_bound {fields : List (String × Value)} {p : String → Bool} {v : Value}
    (h : (Value.object fields).boundsGiven)
    (hp : ∀ name, p name → isBound name)
    (hv : (fields.find? fun f => p f.1).map (·.2) = some v) : v.isVar = false := by
  obtain ⟨f, hfind, rfl⟩ := Option.map_eq_some_iff.mp hv
  have hname : p f.1 := by simpa using List.find?_some hfind
  have hall := List.all_eq_true.mp h f (List.mem_of_find?_eq_some hfind)
  rw [hp f.1 hname, Bool.true_and] at hall
  exact Bool.not_eq_true' _ ▸ hall

theorem verdict_replace {c : Value} (h : c.boundsGiven) :
    verdict (c.replace τ) = verdict c ∨ verdict c = .throws := by
  cases c with
  | var name => exact Or.inr rfl
  | literal number => exact Or.inr rfl
  | list values => exact Or.inr rfl
  | object fields =>
    left
    have hany : ((Value.replaceFields τ fields).any fun f => f.1 = "_eq") =
        fields.any fun f => f.1 = "_eq" := by
      rw [Value.replaceFields_eq_map, List.any_map]
      rfl
    have hlower : lowerLimit (Value.replaceFields τ fields) =
        (lowerLimit fields).map (Value.replace τ) :=
      find?_replaceFields (fun name => name = "_gt" || name = "_gte") fields
    have hupper : upperLimit (Value.replaceFields τ fields) =
        (upperLimit fields).map (Value.replace τ) :=
      find?_replaceFields (fun name => name = "_lt" || name = "_lte") fields
    simp only [Value.replace, verdict, hany, hlower, hupper]
    split
    · rfl
    · cases hl : lowerLimit fields with
      | none => rfl
      | some lower =>
        cases hu : upperLimit fields with
        | none => rfl
        | some upper =>
          have hlv := not_var_of_bound (p := fun name => name = "_gt" || name = "_gte") h
            (by simp +contextual [isBound]) hl
          have huv := not_var_of_bound (p := fun name => name = "_lt" || name = "_lte") h
            (by simp +contextual [isBound]) hu
          simp only [Option.map_some, toNumber_replace hlv, toNumber_replace huv]

/-- Conditions whose verdicts stay, unless they throw. -/
def Stay (τ : String → Value) (cs : List (Option Value)) : Prop :=
  ∀ c, some c ∈ cs → verdict (c.replace τ) = verdict c ∨ verdict c = .throws

theorem decisive_replace {cs : List (Option Value)} (h : Stay τ cs)
    (hd : decisive cs ≠ .throws) :
    decisive (cs.map (Option.map (Value.replace τ))) = decisive cs := by
  induction cs with
  | nil => rfl
  | cons c cs ih =>
    have hcs : Stay τ cs := fun c' hc' => h c' (List.mem_cons_of_mem _ hc')
    cases c with
    | none => exact ih hcs hd
    | some c =>
      rw [decisive] at hd
      rw [List.map_cons, Option.map_some, decisive, decisive]
      rcases h c List.mem_cons_self with hc | hc
      · rw [hc]
        cases hv : verdict c with
        | throws => rfl
        | refused =>
          rw [hv] at hd
          exact ih hcs hd
        | accepted f => rfl
      · rw [hc] at hd
        exact absurd rfl hd

theorem Verdict.after_eq_accepted {v : Verdict} {f g : Option ℚ → Option ℚ}
    (h : v.after g = .accepted f) : v ≠ .throws := by
  rintro rfl
  cases h

/-- An accepting decision stays when the conditions are replaced. -/
theorem decision_replace {cfg : GuardConfig} {object object' : Selection}
    {f : Option ℚ → Option ℚ}
    (hfields : fieldConditions cfg object' =
      (fieldConditions cfg object).map (Option.map (Value.replace τ)))
    (hkeys : keyConditions cfg object' =
      (keyConditions cfg object).map (Option.map (Value.replace τ)))
    (hF : Stay τ (fieldConditions cfg object)) (hK : Stay τ (keyConditions cfg object))
    (h : decision cfg object = .accepted f) : decision cfg object' = .accepted f := by
  have hempty : (collectedFields cfg object').isEmpty = (collectedFields cfg object).isEmpty := by
    have hlen := congrArg List.length hfields
    simp only [fieldConditions, List.length_map] at hlen
    rw [Bool.eq_iff_iff, List.isEmpty_iff_length_eq_zero, List.isEmpty_iff_length_eq_zero, hlen]
  unfold decision at h ⊢
  rw [hkeys, hempty, hfields]
  cases hk : keyConditions cfg object with
  | nil =>
    rw [hk] at h
    dsimp only at h
    rw [List.map_nil]
    dsimp only
    split at h
    · rename_i hnil
      rw [if_pos hnil, h]
    · rename_i hnil
      rw [if_neg hnil, decisive_replace hF (by rw [h]; exact Verdict.noConfusion), h]
  | cons k ks =>
    rw [hk] at h hK
    rw [List.map_cons]
    dsimp only at h ⊢
    have hne : decisive (fieldConditions cfg object) ≠ .throws := by
      intro ht
      rw [ht] at h
      cases h
    rw [decisive_replace hF hne]
    generalize decisive (fieldConditions cfg object) = v at h hne ⊢
    cases v with
    | throws => exact absurd rfl hne
    | refused =>
      have hd : decisive (k :: ks) = .accepted f := h
      exact (decisive_replace hK (by rw [hd]; exact Verdict.noConfusion)).trans hd
    | accepted g =>
      cases k with
      | none => exact h
      | some c =>
        have hd := decisive_replace hK (Verdict.after_eq_accepted h)
        exact (congrArg (Verdict.after g) hd).trans h

/-! ## 3. Passing the guard -/

/-- No bound of a condition inside the nodes is a variable. -/
def BoundsGiven (cfg : GuardConfig) (nodes : List Node) : Prop :=
  ∀ c ∈ nodes.filterMap (Node.keyIn? cfg.condition), c.boundsGiven

theorem boundsGiven_of_ownCondition {cfg : GuardConfig} {nodes inner : List Node} {c : Value}
    (h : BoundsGiven cfg nodes) (hsub : inner ⊆ nodes) (hc : ownCondition cfg inner = some c) :
    c.boundsGiven := by
  obtain ⟨n, hn, hnc⟩ := List.mem_filterMap.mp (List.mem_of_getLast? hc)
  exact h c (List.mem_filterMap.mpr ⟨n, hsub hn, hnc⟩)

theorem whereArgument_nodes_subset {s : Selection} {a : Argument} (h : s.whereArgument = some a) :
    a.value.nodes ⊆ s.nodes := by
  cases s with
  | field name arguments directives selectionSet =>
    have ha : a ∈ arguments := List.mem_of_find?_eq_some h
    intro n hn
    have hmem : n ∈ argumentNodes arguments :=
      List.mem_flatMap.mpr ⟨a, ha, List.mem_append_left _ hn⟩
    exact List.mem_append_left _ (List.mem_append_left _ hmem)
  | fragmentSpread name directives => cases h
  | inlineFragment directives selectionSet => cases h

theorem eq_of_fieldIn? {names : List String} {n : Node} {s : Selection}
    (h : n.fieldIn? names = some s) : n = .selection s := by
  cases n with
  | selection t =>
    cases t with
    | field name arguments directives selectionSet =>
      simp only [Node.fieldIn?] at h
      split at h
      · cases h
        rfl
      · cases h
    | fragmentSpread name directives => cases h
    | inlineFragment directives selectionSet => cases h
  | argument a => cases h
  | objectField name value => cases h

theorem collectedFields_nodes_subset {cfg : GuardConfig} {object f : Selection}
    (h : f ∈ collectedFields cfg object) : f.nodes ⊆ object.nodes := by
  rcases List.mem_append.mp h with hroot | hinner
  · obtain ⟨⟩ := eq_of_fieldIn? (Option.mem_toList.mp hroot)
    exact List.Subset.refl _
  · obtain ⟨n, hn, hf⟩ := List.mem_filterMap.mp hinner
    rw [eq_of_fieldIn? hf] at hn
    exact Selection.closed_nodes object _ hn

theorem collectedKeys_nodes_subset {cfg : GuardConfig} {object : Selection} {v : Value}
    (h : v ∈ collectedKeys cfg object) : v.nodes ⊆ object.nodes := by
  obtain ⟨n, hn, hv⟩ := List.mem_filterMap.mp h
  cases n with
  | selection s => cases hv
  | argument a => cases hv
  | objectField name value =>
    simp only [Node.keyIn?] at hv
    split at hv
    · cases hv
      exact Selection.closed_nodes object _ hn
    · cases hv

theorem stay_fieldConditions {cfg : GuardConfig} {object : Selection}
    (h : BoundsGiven cfg object.nodes) : Stay τ (fieldConditions cfg object) := by
  intro c hc
  obtain ⟨f, hf, hfc⟩ := List.mem_map.mp hc
  obtain ⟨a, ha, hac⟩ := Option.bind_eq_some_iff.mp hfc
  refine verdict_replace (boundsGiven_of_ownCondition h ?_ hac)
  exact List.Subset.trans (whereArgument_nodes_subset ha) (collectedFields_nodes_subset hf)

theorem stay_keyConditions {cfg : GuardConfig} {object : Selection}
    (h : BoundsGiven cfg object.nodes) : Stay τ (keyConditions cfg object) := by
  intro c hc
  obtain ⟨v, hv, hvc⟩ := List.mem_map.mp hc
  exact verdict_replace (boundsGiven_of_ownCondition h (collectedKeys_nodes_subset hv) hvc)

theorem decision_of_passes {cfg : GuardConfig} {object : Selection} {range : Option ℚ}
    (h : isQueryNeedCondition cfg object = some (true, range)) :
    ∃ f, decision cfg object = .accepted f ∧ f (some 0) = range := by
  have hr := isQueryNeedCondition_returns cfg object
  cases hd : decision cfg object with
  | throws =>
    rw [hd, h] at hr
    cases hr
  | refused =>
    rw [hd, h] at hr
    obtain ⟨_, hr⟩ := hr
    cases hr
  | accepted f =>
    rw [hd, h] at hr
    cases hr
    exact ⟨f, rfl, rfl⟩

/-- A selection that passes the guard passes it replaced, with the same range. -/
theorem isQueryNeedCondition_replace {cfg : GuardConfig} (hτ : ∀ x, (τ x).nodes = [])
    {s t : Selection} {range : Option ℚ} (hst : Replaces τ s t) (hbounds : BoundsGiven cfg s.nodes)
    (h : isQueryNeedCondition cfg s = some (true, range)) :
    isQueryNeedCondition cfg t = some (true, range) := by
  obtain ⟨f, hf, rfl⟩ := decision_of_passes h
  have hd := decision_replace (fieldConditions_replace cfg hτ hst)
    (keyConditions_replace cfg hτ hst.nodes) (stay_fieldConditions hbounds)
    (stay_keyConditions hbounds) hf
  have hr := isQueryNeedCondition_returns cfg t
  rw [hd] at hr
  exact hr

end

end Erascope.Graphql
