import Mathlib.Tactic
import Erascope.Graphql.Grammar

/-!
# The walks over untyped nodes

`Utils.getDepth` and `Utils.filterWhereQuery` of `common/utils/utils.ts` as they are written: they
know nothing of the syntax tree and visit all the properties of whatever object they are given. A
node of the tree of `graphql` is an object with a `kind`; the nodes of the kinds `ObjectField` and
`Argument` have a name.

* `Js`: what the walks are given.
* `IsAst`: the objects in it are nodes.
* `RootToLeaf`: a way from the root down to a scalar.

Results:
1. `getDepth_isGreatest`: `getDepth` of a node is the greatest number of keys that are not
   operators on such a way.
2. `filterWhereQuery_spec`: `filterWhereQuery` returns every `where` argument below the root once.
-/

namespace Erascope.Graphql

/-! ## 1. Values of JavaScript -/

inductive Scalar
  | undefined
  | null
  | bool (b : Bool)
  | number (n : ℚ)
  | string (s : String)
deriving DecidableEq

/-- A value: the properties of an object are in the order of `Object.keys`. -/
inductive Js
  | scalar (s : Scalar)
  | array (items : List Js)
  | object (props : List (String × Js))

/-- `Object.values(object)` -/
def Js.children : Js → List Js
  | .scalar _ => []
  | .array items => items
  | .object props => props.map Prod.snd

/-- `object.kind === kind` -/
def hasKind (props : List (String × Js)) (kind : String) : Bool :=
  match props.lookup "kind" with
  | some (.scalar (.string s)) => s = kind
  | _ => false

/-- `object.name.value` where it is a text. -/
def nameValue (props : List (String × Js)) : Option String :=
  match props.lookup "name" with
  | some (.object inner) =>
    match inner.lookup "value" with
    | some (.scalar (.string s)) => some s
    | _ => none
  | _ => none

/-- `.` of a regular expression: no line terminator. -/
def isDot (c : Char) : Bool := c ∉ ['\n', '\r', '\u2028', '\u2029']

/-- `name.match('^_.')` -/
def matchesOperator (name : String) : Bool :=
  match name.toList with
  | '_' :: c :: _ => isDot c
  | _ => false

/-! ## 2. `getDepth` -/

/-- What an object adds to the depth; it throws when the name is no text. -/
def ownDepth (props : List (String × Js)) : Option ℤ :=
  if hasKind props "ObjectField" then
    (nameValue props).map fun name => if matchesOperator name then 0 else 1
  else some 0

mutual

/-- `Utils.getDepth` -/
def Js.getDepth : Js → Option ℤ
  | .scalar _ => some 0
  | .array items => Js.maxDepth items
  | .object props =>
    (ownDepth props).bind fun own => (Js.maxDepthOfProps props).map fun depth => own + depth

/-- `Math.max(-1, ...items.map(Utils.getDepth))` -/
def Js.maxDepth : List Js → Option ℤ
  | [] => some (-1)
  | j :: js => j.getDepth.bind fun d => (Js.maxDepth js).map fun depth => max d depth

def Js.maxDepthOfProps : List (String × Js) → Option ℤ
  | [] => some (-1)
  | (_, j) :: ps => j.getDepth.bind fun d => (Js.maxDepthOfProps ps).map fun depth => max d depth

end

/-! ## 3. `filterWhereQuery` -/

/-- `value.name.value === 'where'`; it throws when there is no name. -/
def nameIsWhere (props : List (String × Js)) : Option Bool :=
  match props.lookup "name" with
  | none => none
  | some (.scalar .undefined) => none
  | some (.scalar .null) => none
  | some (.object inner) =>
    some (match inner.lookup "value" with
      | some (.scalar (.string s)) => s = "where"
      | _ => false)
  | some _ => some false

/-- The value itself, when it is a `where` argument. -/
def whereItself : Js → Option (List Js)
  | .object props =>
    if hasKind props "Argument" then
      (nameIsWhere props).map fun isWhere => if isWhere then [.object props] else []
    else some []
  | _ => some []

mutual

/-- `Utils.filterWhereQuery`: inside a property first, then the property itself. -/
def Js.filterWhereQuery : Js → Option (List Js)
  | .scalar _ => some []
  | .array items => Js.filterList items
  | .object props => Js.filterProps props

def Js.filterList : List Js → Option (List Js)
  | [] => some []
  | j :: js =>
    j.filterWhereQuery.bind fun inside => (whereItself j).bind fun itself =>
      (Js.filterList js).map fun rest => inside ++ itself ++ rest

def Js.filterProps : List (String × Js) → Option (List Js)
  | [] => some []
  | (_, j) :: ps =>
    j.filterWhereQuery.bind fun inside => (whereItself j).bind fun itself =>
      (Js.filterProps ps).map fun rest => inside ++ itself ++ rest

end

/-! ## 4. Nodes, ways and addresses -/

/-- An object with a kind, and with a name where its kind has one. -/
structure IsNode (props : List (String × Js)) : Prop where
  kind : ∃ kind, props.lookup "kind" = some (.scalar (.string kind))
  name : hasKind props "ObjectField" ∨ hasKind props "Argument" →
    ∃ name, nameValue props = some name ∧ ∀ c ∈ name.toList, isNameContinue c

/-- A syntax tree: nodes, lists and scalars. -/
inductive Js.IsAst : Js → Prop
  | scalar (s : Scalar) : IsAst (.scalar s)
  | array {items : List Js} (hitems : ∀ j ∈ items, IsAst j) : IsAst (.array items)
  | object {props : List (String × Js)} (hnode : IsNode props)
      (hprops : ∀ j ∈ props.map Prod.snd, IsAst j) : IsAst (.object props)

/-- An object field whose name does not start with an underscore and another character. -/
def Js.isCounted : Js → Bool
  | .object props => hasKind props "ObjectField" && (nameValue props).any fun n => !isOperator n
  | _ => false

/-- The values on a way from the root to a scalar. -/
inductive RootToLeaf : Js → List Js → Prop
  | leaf (s : Scalar) : RootToLeaf (.scalar s) [.scalar s]
  | step {v j : Js} {way : List Js} (hj : j ∈ v.children) (hway : RootToLeaf j way) :
      RootToLeaf v (v :: way)

/-- How many object fields on a way are counted. -/
def countFields (way : List Js) : ℕ := way.countP Js.isCounted

/-- What is at an address: the indices of the properties on the way to it. -/
def Js.at? : Js → List ℕ → Option Js
  | v, [] => some v
  | v, i :: address => v.children[i]?.bind fun j => j.at? address

/-- The value is a `where` argument. -/
def Js.isWhereArgument : Js → Bool
  | .object props => hasKind props "Argument" && nameValue props = some "where"
  | _ => false

namespace JsLemmas

theorem maxDepthOfProps_eq (props : List (String × Js)) :
    Js.maxDepthOfProps props = Js.maxDepth (props.map Prod.snd) := by
  induction props with
  | nil => rfl
  | cons p ps ih =>
    obtain ⟨key, j⟩ := p
    rw [Js.maxDepthOfProps, ih]
    rfl

theorem filterProps_eq (props : List (String × Js)) :
    Js.filterProps props = Js.filterList (props.map Prod.snd) := by
  induction props with
  | nil => rfl
  | cons p ps ih =>
    obtain ⟨key, j⟩ := p
    rw [Js.filterProps, ih]
    rfl

/-- The names of the grammar have no line terminators. -/
theorem matchesOperator_eq {name : String} (h : ∀ c ∈ name.toList, isNameContinue c) :
    matchesOperator name = isOperator name := by
  unfold matchesOperator isOperator
  cases hname : name.toList with
  | nil => rfl
  | cons d cs =>
    cases cs with
    | nil => simp
    | cons c cs =>
      have hdot : isDot c = true := by
        have hc : isNameContinue c := h c (by simp [hname])
        by_contra hnot
        have hmem : c ∈ ['\n', '\r', '\u2028', '\u2029'] :=
          not_not.mp fun hout => hnot (decide_eq_true hout)
        fin_cases hmem <;> exact absurd hc (by decide)
      by_cases hd : d = '_'
      · subst hd
        exact hdot
      · simp [hd]

/-! ### The depth -/

/-- What `maxDepth` says about the ways below some values. -/
structure MaxWay (js : List Js) (d : ℤ) : Prop where
  bound : ∀ j ∈ js, ∀ way, RootToLeaf j way → (countFields way : ℤ) ≤ d
  reached : d = -1 ∨ ∃ j ∈ js, ∃ way, RootToLeaf j way ∧ (countFields way : ℤ) = d
  low : -1 ≤ d

theorem maxWay_nil : MaxWay [] (-1) := ⟨by simp, Or.inl rfl, le_rfl⟩

theorem MaxWay.cons {j : Js} {js : List Js} {d e : ℤ} (hj : MaxWay [j] d) (hjs : MaxWay js e) :
    MaxWay (j :: js) (max d e) := by
  refine ⟨?_, ?_, le_max_of_le_left hj.low⟩
  · intro i hi way hway
    rcases List.mem_cons.mp hi with rfl | hi
    · exact (hj.bound i (List.mem_singleton_self i) way hway).trans (le_max_left d e)
    · exact (hjs.bound i hi way hway).trans (le_max_right d e)
  · rcases max_choice d e with hmax | hmax <;> rw [hmax]
    · rcases hj.reached with h | ⟨i, hi, way, hway, hd⟩
      · exact Or.inl h
      · exact Or.inr ⟨i, List.mem_cons.mpr (Or.inl (List.mem_singleton.mp hi)), way, hway, hd⟩
    · rcases hjs.reached with h | ⟨i, hi, way, hway, hd⟩
      · exact Or.inl h
      · exact Or.inr ⟨i, List.mem_cons_of_mem _ hi, way, hway, hd⟩

theorem exists_maxDepth {js : List Js} (h : ∀ j ∈ js, ∃ d, j.getDepth = some d ∧ MaxWay [j] d) :
    ∃ d, Js.maxDepth js = some d ∧ MaxWay js d := by
  induction js with
  | nil => exact ⟨-1, rfl, maxWay_nil⟩
  | cons j js ih =>
    obtain ⟨⟨d, hd, hway⟩, hrest⟩ := List.forall_mem_cons.mp h
    obtain ⟨e, he, hways⟩ := ih hrest
    exact ⟨max d e, by simp [Js.maxDepth, hd, he], hway.cons hways⟩

/-- The ways from a value go through the values in it. -/
theorem maxWay_of_children {v : Js} {d own : ℤ} (hv : ∀ s, v ≠ .scalar s)
    (hown : own = if v.isCounted then 1 else 0) (h : MaxWay v.children d)
    (hlow : own = 0 ∨ 0 ≤ d) : MaxWay [v] (own + d) := by
  have hcount : ∀ way, (countFields (v :: way) : ℤ) = own + countFields way := by
    intro way
    rw [countFields, List.countP_cons, hown]
    split <;> · push_cast; rw [countFields]; ring
  refine ⟨?_, ?_, ?_⟩
  · rintro i hi way hway
    obtain rfl := List.mem_singleton.mp hi
    cases hway with
    | leaf s => exact absurd rfl (hv s)
    | step hj hway =>
      rw [hcount]
      exact add_le_add_right (h.bound _ hj _ hway) own
  · rcases h.reached with hd | ⟨j, hj, way, hway, hd⟩
    · left
      rcases hlow with rfl | hlow
      · rw [zero_add, hd]
      · omega
    · exact Or.inr ⟨v, List.mem_singleton_self v, v :: way, .step hj hway, by rw [hcount, hd]⟩
  · have := h.low
    rcases hlow with rfl | hlow
    · omega
    · split at hown <;> omega

theorem ownDepth_eq {props : List (String × Js)} (h : IsNode props) :
    ownDepth props = some (if (Js.object props).isCounted then 1 else 0) := by
  rw [ownDepth, Js.isCounted]
  cases hkind : hasKind props "ObjectField" with
  | false => rfl
  | true =>
    obtain ⟨name, hname, hchars⟩ := h.name (Or.inl hkind)
    rw [hname, if_pos rfl, Option.map_some, matchesOperator_eq hchars]
    cases hname : isOperator name <;> simp [hname]

theorem mem_values {props : List (String × Js)} {key : String} {j : Js}
    (h : props.lookup key = some j) : j ∈ props.map Prod.snd := by
  induction props with
  | nil => cases h
  | cons p ps ih =>
    rw [List.lookup_cons] at h
    split at h
    · obtain rfl := Option.some.inj h
      exact List.mem_cons_self
    · exact List.mem_cons_of_mem _ (ih h)

/-- The kind of a node ends a way. -/
theorem maxDepth_nonneg {props : List (String × Js)} (h : IsNode props) {d : ℤ}
    (hd : MaxWay (props.map Prod.snd) d) : 0 ≤ d := by
  obtain ⟨kind, hkind⟩ := h.kind
  exact hd.bound _ (mem_values hkind) _ (.leaf _)

theorem exists_getDepth {v : Js} (h : v.IsAst) : ∃ d, v.getDepth = some d ∧ MaxWay [v] d := by
  induction h with
  | scalar s =>
    refine ⟨0, rfl, ⟨?_, Or.inr ⟨_, List.mem_singleton_self _, _, .leaf s, rfl⟩, by decide⟩⟩
    intro j hj way hway
    obtain rfl := List.mem_singleton.mp hj
    cases hway with
    | leaf => exact le_rfl
    | step hj => cases hj
  | @array items hitems ih =>
    obtain ⟨d, hd, hways⟩ := exists_maxDepth ih
    have hway := @maxWay_of_children (.array items) d 0 (by simp) rfl hways (Or.inl rfl)
    exact ⟨d, hd, by rwa [zero_add] at hway⟩
  | @object props hnode hprops ih =>
    obtain ⟨d, hd, hways⟩ := exists_maxDepth ih
    refine ⟨_, ?_, maxWay_of_children (by simp) rfl hways (Or.inr (maxDepth_nonneg hnode hways))⟩
    rw [Js.getDepth, ownDepth_eq hnode, maxDepthOfProps_eq, hd]
    rfl

theorem getDepth_nonneg {props : List (String × Js)} (h : (Js.object props).IsAst) {d : ℤ}
    (hd : (Js.object props).getDepth = some d) : 0 ≤ d := by
  obtain ⟨d', hd', hway⟩ := exists_getDepth h
  obtain rfl := Option.some.inj (hd.symm.trans hd')
  cases h with
  | object hnode hprops =>
    obtain ⟨kind, hkind⟩ := hnode.kind
    have hroot := RootToLeaf.step (v := .object props) (mem_values hkind) (.leaf _)
    exact (Int.natCast_nonneg _).trans (hway.bound _ (List.mem_singleton_self _) _ hroot)

end JsLemmas

open JsLemmas

/-- `getDepth` of a node is the greatest number of counted object fields on a way from the node
to a scalar. -/
theorem getDepth_isGreatest {props : List (String × Js)} (h : (Js.object props).IsAst) :
    ∃ d : ℤ, (Js.object props).getDepth = some d ∧
      IsGreatest {n : ℤ | ∃ way, RootToLeaf (.object props) way ∧ n = countFields way} d := by
  obtain ⟨d, hd, hway⟩ := exists_getDepth h
  refine ⟨d, hd, ?_, ?_⟩
  · rcases hway.reached with hneg | ⟨j, hj, way, hroot, hcount⟩
    · have hnonneg := getDepth_nonneg h hd
      omega
    · obtain rfl := List.mem_singleton.mp hj
      exact ⟨way, hroot, hcount.symm⟩
  · rintro n ⟨way, hroot, rfl⟩
    exact hway.bound _ (List.mem_singleton_self _) way hroot

/-! ## 5. The addresses of the `where` arguments -/

/-- What is at an address below some values. -/
def atIn (js : List Js) : List ℕ → Option Js
  | [] => none
  | i :: address => js[i]?.bind fun j => j.at? address

/-- An address below the tail of a list, seen from the list. -/
def shift : List ℕ → List ℕ
  | [] => []
  | i :: address => (i + 1) :: address

/-- The values at the addresses are the `where` arguments below some values. -/
structure Collected (js ws : List Js) (addresses : List (List ℕ)) : Prop where
  nodup : addresses.Nodup
  mem : ∀ a, a ∈ addresses ↔ ∃ w, atIn js a = some w ∧ w.isWhereArgument
  values : addresses.map (atIn js) = ws.map some

theorem atIn_shift (j : Js) (js : List Js) (a : List ℕ) : atIn (j :: js) (shift a) = atIn js a := by
  cases a <;> rfl

theorem shift_injective : Function.Injective shift := by
  intro a b h
  cases a with
  | nil =>
    cases b with
    | nil => rfl
    | cons k b => cases h
  | cons i a =>
    cases b with
    | nil => cases h
    | cons k b =>
      obtain ⟨hik, rfl⟩ := List.cons.inj h
      rw [Nat.succ.inj hik]

theorem at?_eq_atIn (v : Js) {a : List ℕ} (ha : a ≠ []) : v.at? a = atIn v.children a := by
  cases a with
  | nil => exact absurd rfl ha
  | cons i a => rfl

theorem Collected.ne_nil {js ws : List Js} {addresses : List (List ℕ)}
    (h : Collected js ws addresses) {a : List ℕ} (ha : a ∈ addresses) : a ≠ [] := by
  rintro rfl
  obtain ⟨w, hw, -⟩ := (h.mem []).mp ha
  cases hw

theorem collected_nil : Collected [] [] [] := by
  refine ⟨List.nodup_nil, fun a => ?_, rfl⟩
  cases a <;> simp [atIn]

/-- The addresses of a list: below its head, the head itself, below its tail. -/
def consAddresses (j : Js) (inside rest : List (List ℕ)) : List (List ℕ) :=
  inside.map (0 :: ·) ++ (if j.isWhereArgument then [[0]] else []) ++ rest.map shift

theorem mem_consAddresses {j : Js} {js ws ws' : List Js} {inside rest : List (List ℕ)}
    (hj : Collected j.children ws inside) (hjs : Collected js ws' rest) (a : List ℕ) :
    a ∈ consAddresses j inside rest ↔ ∃ w, atIn (j :: js) a = some w ∧ w.isWhereArgument := by
  simp only [consAddresses, List.mem_append, List.mem_map, or_assoc]
  match a with
  | [] =>
    refine iff_of_false ?_ (by simp [atIn])
    rintro (⟨b, -, hb⟩ | hb | ⟨b, hb, hshift⟩)
    · cases hb
    · split at hb <;> simp at hb
    · exact hjs.ne_nil hb (shift_injective hshift)
  | 0 :: r =>
    have hrest : ¬ ∃ b ∈ rest, shift b = 0 :: r := by
      rintro ⟨b, -, hb⟩
      cases b <;> cases hb
    cases r with
    | nil =>
      have hinside : ¬ ∃ b ∈ inside, 0 :: b = [0] := by
        rintro ⟨b, hb, hcons⟩
        exact hj.ne_nil hb (List.cons.inj hcons).2
      rw [iff_false_intro hrest, iff_false_intro hinside]
      cases hw : j.isWhereArgument <;> simp [atIn, Js.at?, hw]
    | cons k r =>
      have hitself : 0 :: k :: r ∉ if j.isWhereArgument then [[0]] else [] := by
        split <;> simp
      rw [iff_false_intro hrest, iff_false_intro hitself, or_false, or_false]
      have hat : atIn (j :: js) (0 :: k :: r) = atIn j.children (k :: r) := rfl
      rw [hat, ← hj.mem]
      simp
  | (i + 1) :: r =>
    have hinside : ¬ ∃ b ∈ inside, 0 :: b = (i + 1) :: r := by
      rintro ⟨b, -, hb⟩
      cases hb
    have hitself : (i + 1) :: r ∉ if j.isWhereArgument then [[0]] else [] := by
      split <;> simp
    rw [iff_false_intro hinside, iff_false_intro hitself, false_or, false_or]
    have hat : atIn (j :: js) (shift (i :: r)) = atIn js (i :: r) := atIn_shift j js _
    have hshift : shift (i :: r) = (i + 1) :: r := rfl
    rw [← hshift, hat, ← hjs.mem]
    exact ⟨fun ⟨b, hb, h⟩ => shift_injective h ▸ hb, fun h => ⟨_, h, rfl⟩⟩

theorem nodup_consAddresses {j : Js} {js ws ws' : List Js} {inside rest : List (List ℕ)}
    (hj : Collected j.children ws inside) (hjs : Collected js ws' rest) :
    (consAddresses j inside rest).Nodup := by
  have hinside : (inside.map (0 :: ·)).Nodup :=
    hj.nodup.map fun a b h => (List.cons.inj h).2
  have hrest : (rest.map shift).Nodup := hjs.nodup.map shift_injective
  have hitself : (if j.isWhereArgument then [[0]] else []).Nodup := by
    split <;> simp
  refine List.nodup_append.mpr ⟨List.nodup_append.mpr ⟨hinside, hitself, ?_⟩, hrest, ?_⟩
  · intro a ha b hb hab
    obtain ⟨r, hr, rfl⟩ := List.mem_map.mp ha
    split at hb
    · obtain rfl := List.mem_singleton.mp hb
      exact hj.ne_nil hr (List.cons.inj hab).2
    · cases hb
  · intro a ha b hb hab
    obtain ⟨r, hr, rfl⟩ := List.mem_map.mp hb
    obtain ⟨i, r, rfl⟩ := List.exists_cons_of_ne_nil (hjs.ne_nil hr)
    rcases List.mem_append.mp ha with ha | ha
    · obtain ⟨q, -, rfl⟩ := List.mem_map.mp ha
      cases hab
    · split at ha
      · obtain rfl := List.mem_singleton.mp ha
        cases hab
      · cases ha

theorem Collected.cons {j : Js} {js ws ws' : List Js} {inside rest : List (List ℕ)}
    (hj : Collected j.children ws inside) (hjs : Collected js ws' rest) :
    Collected (j :: js) (ws ++ (if j.isWhereArgument then [j] else []) ++ ws')
      (consAddresses j inside rest) := by
  refine ⟨nodup_consAddresses hj hjs, mem_consAddresses hj hjs, ?_⟩
  have hinside : (inside.map (0 :: ·)).map (atIn (j :: js)) = ws.map some := by
    rw [List.map_map, ← hj.values]
    refine List.map_congr_left fun a ha => ?_
    exact at?_eq_atIn j (hj.ne_nil ha)
  have hitself : (if j.isWhereArgument then [[0]] else []).map (atIn (j :: js)) =
      (if j.isWhereArgument then [j] else []).map some := by
    split <;> rfl
  have hrest : (rest.map shift).map (atIn (j :: js)) = ws'.map some := by
    rw [List.map_map, ← hjs.values]
    exact List.map_congr_left fun a _ => atIn_shift j js a
  rw [consAddresses, List.map_append, List.map_append, List.map_append, List.map_append, hinside,
    hitself, hrest]

theorem whereItself_eq {j : Js} (h : j.IsAst) :
    whereItself j = some (if j.isWhereArgument then [j] else []) := by
  cases h with
  | scalar s => rfl
  | array h => rfl
  | @object props hnode hprops =>
    rw [whereItself, Js.isWhereArgument]
    cases hkind : hasKind props "Argument" with
    | false => rfl
    | true =>
      obtain ⟨name, hname, -⟩ := hnode.name (Or.inr hkind)
      have hwhere : nameIsWhere props = some (decide (name = "where")) := by
        unfold nameValue at hname
        unfold nameIsWhere
        split at hname
        · rename_i inner hinner
          split at hname
          · rename_i s hs
            obtain rfl := Option.some.inj hname
            simp only [hinner, hs]
          · cases hname
        · cases hname
      rw [if_pos rfl, hwhere, hname]
      by_cases h : name = "where" <;> simp [h]

theorem exists_filterList {js : List Js} (hast : ∀ j ∈ js, j.IsAst)
    (h : ∀ j ∈ js, ∃ ws addresses, j.filterWhereQuery = some ws ∧
      Collected j.children ws addresses) :
    ∃ ws addresses, Js.filterList js = some ws ∧ Collected js ws addresses := by
  induction js with
  | nil => exact ⟨[], [], rfl, collected_nil⟩
  | cons j js ih =>
    obtain ⟨⟨ws, inside, hws, hj⟩, hrest⟩ := List.forall_mem_cons.mp h
    obtain ⟨hjast, hjsast⟩ := List.forall_mem_cons.mp hast
    obtain ⟨ws', rest, hws', hjs⟩ := ih hjsast hrest
    refine ⟨_, _, ?_, hj.cons hjs⟩
    rw [Js.filterList, hws, whereItself_eq hjast, hws']
    rfl

theorem exists_filterWhereQuery {v : Js} (h : v.IsAst) :
    ∃ ws addresses, v.filterWhereQuery = some ws ∧ Collected v.children ws addresses := by
  induction h with
  | scalar s => exact ⟨[], [], rfl, collected_nil⟩
  | array hitems ih => exact exists_filterList hitems ih
  | @object props hnode hprops ih =>
    rw [Js.filterWhereQuery, filterProps_eq]
    exact exists_filterList hprops ih

/-- `filterWhereQuery` returns what is at the addresses of the `where` arguments below the root,
each address once. -/
theorem filterWhereQuery_spec {v : Js} (h : v.IsAst) :
    ∃ (ws : List Js) (addresses : List (List ℕ)), v.filterWhereQuery = some ws ∧
      addresses.Nodup ∧
      (∀ a, a ∈ addresses ↔ a ≠ [] ∧ ∃ w, v.at? a = some w ∧ w.isWhereArgument) ∧
        addresses.map v.at? = ws.map some := by
  obtain ⟨ws, addresses, hws, hcollected⟩ := exists_filterWhereQuery h
  refine ⟨ws, addresses, hws, hcollected.nodup, fun a => ?_, ?_⟩
  · constructor
    · intro ha
      have hne := hcollected.ne_nil ha
      rw [at?_eq_atIn v hne]
      exact ⟨hne, (hcollected.mem a).mp ha⟩
    · rintro ⟨hne, hw⟩
      rw [at?_eq_atIn v hne] at hw
      exact (hcollected.mem a).mpr hw
  · rw [← hcollected.values]
    exact List.map_congr_left fun a ha => at?_eq_atIn v (hcollected.ne_nil ha)

end Erascope.Graphql
