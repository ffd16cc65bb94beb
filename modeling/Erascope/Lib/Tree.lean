import Mathlib.Data.List.Basic
import Mathlib.Tactic

/-!
# Trees and the paths to their nodes

Finite trees with a label at every node and any number of ordered children. The path of a node
lists the labels and the child indices on the way from the root, and its own label; `paths` are
those of all nodes in pre-order, `pathsBelow` those of all but the root.

* `mem_pathsBelow`: what the paths below the root are.
* `nodup_steps`: two nodes have different steps.
* `rebuild_eq`: a tree with at least two nodes is rebuilt from the paths below its root, in
  whatever order and however often they are listed.
-/

namespace Erascope

/-- A finite tree. -/
inductive Tree (α : Type)
  | node (label : α) (children : List (Tree α))

/-- The way from the root of a tree to one of its nodes. -/
structure Path (α : Type) where
  /-- The labels of the nodes passed, each with the index of the child taken. -/
  steps : List (α × ℕ)
  /-- The label of the node itself. -/
  label : α
deriving DecidableEq, Repr

variable {α β : Type}

/-- The same node, seen from the parent of the root. -/
def Path.cons (label : α) (i : ℕ) (p : Path α) : Path α := ⟨(label, i) :: p.steps, p.label⟩

def Path.map (f : α → β) (p : Path α) : Path β := ⟨p.steps.map fun s => (f s.1, s.2), f p.label⟩

@[simp] theorem Path.steps_cons (label : α) (i : ℕ) (p : Path α) :
    (p.cons label i).steps = (label, i) :: p.steps := rfl

@[simp] theorem Path.label_cons (label : α) (i : ℕ) (p : Path α) :
    (p.cons label i).label = p.label := rfl

@[simp] theorem Path.map_cons (f : α → β) (label : α) (i : ℕ) (p : Path α) :
    (p.cons label i).map f = (p.map f).cons (f label) i := rfl

namespace Tree

/-! ## 1. Nodes in pre-order -/

def label : Tree α → α
  | node label _ => label

def children : Tree α → List (Tree α)
  | node _ children => children

@[simp] theorem children_node (label : α) (children : List (Tree α)) :
    (node label children).children = children := rfl

mutual

/-- The paths of all nodes. -/
def paths : Tree α → List (Path α)
  | node label children => ⟨[], label⟩ :: pathsFrom label 0 children

/-- The paths through the children of a node with the given label, numbered from `i` on. -/
def pathsFrom (label : α) (i : ℕ) : List (Tree α) → List (Path α)
  | [] => []
  | child :: rest => child.paths.map (Path.cons label i) ++ pathsFrom label (i + 1) rest

end

/-- The paths of all nodes but the root. -/
def pathsBelow (t : Tree α) : List (Path α) := pathsFrom t.label 0 t.children

/-- The labels of all nodes. -/
def labels (t : Tree α) : List α := t.paths.map Path.label

mutual

def map (f : α → β) : Tree α → Tree β
  | node label children => node (f label) (mapAll f children)

def mapAll (f : α → β) : List (Tree α) → List (Tree β)
  | [] => []
  | child :: rest => child.map f :: mapAll f rest

end

theorem paths_eq (t : Tree α) : t.paths = ⟨[], t.label⟩ :: t.pathsBelow := by
  cases t
  rw [paths]
  rfl

/-- Induction with the hypothesis for all children. -/
@[elab_as_elim, induction_eliminator]
theorem induction {motive : Tree α → Prop}
    (node : ∀ label children, (∀ c ∈ children, motive c) → motive (node label children)) :
    ∀ t, motive t
  | .node label children => node label children fun c _ => induction node c

theorem mem_pathsFrom {label : α} {i : ℕ} {children : List (Tree α)} {p : Path α} :
    p ∈ pathsFrom label i children ↔
      ∃ (j : ℕ) (c : Tree α), children[j]? = some c ∧ ∃ q ∈ c.paths, p = q.cons label (i + j) := by
  induction children generalizing i with
  | nil => simp [pathsFrom]
  | cons child rest ih =>
    rw [pathsFrom, List.mem_append, ih, List.mem_map]
    constructor
    · rintro (⟨q, hq, rfl⟩ | ⟨j, c, hc, q, hq, rfl⟩)
      · exact ⟨0, child, rfl, q, hq, rfl⟩
      · exact ⟨j + 1, c, hc, q, hq, by rw [Nat.add_assoc, Nat.add_comm 1]⟩
    · rintro ⟨_ | j, c, hc, q, hq, rfl⟩
      · cases hc
        exact Or.inl ⟨q, hq, rfl⟩
      · exact Or.inr ⟨j, c, hc, q, hq, by rw [Nat.add_assoc, Nat.add_comm 1]⟩

/-- A path below the root goes through a child. -/
theorem mem_pathsBelow {t : Tree α} {p : Path α} : p ∈ t.pathsBelow ↔
    ∃ (i : ℕ) (c : Tree α), t.children[i]? = some c ∧ ∃ q ∈ c.paths, p = q.cons t.label i := by
  simp only [pathsBelow, mem_pathsFrom, Nat.zero_add]

theorem child_mem_pathsBelow {t : Tree α} {i : ℕ} {c : Tree α} (hc : t.children[i]? = some c) :
    ⟨[(t.label, i)], c.label⟩ ∈ t.pathsBelow := by
  refine mem_pathsBelow.mpr ⟨i, c, hc, ⟨[], c.label⟩, ?_, rfl⟩
  rw [paths_eq]
  exact List.mem_cons_self

theorem pathsBelow_eq_nil_iff {t : Tree α} : t.pathsBelow = [] ↔ t.children = [] := by
  obtain ⟨label, children⟩ := t
  cases children with
  | nil => simp [pathsBelow, pathsFrom]
  | cons child rest => simp [pathsBelow, pathsFrom, paths_eq child]

mutual

theorem paths_map (f : α → β) : ∀ t : Tree α, (t.map f).paths = t.paths.map (Path.map f)
  | node label children => by
    rw [map, paths, paths, List.map_cons, pathsFrom_mapAll]
    rfl

theorem pathsFrom_mapAll (f : α → β) (label : α) (i : ℕ) : ∀ children : List (Tree α),
    pathsFrom (f label) i (mapAll f children) = (pathsFrom label i children).map (Path.map f)
  | [] => rfl
  | child :: rest => by
    rw [mapAll, pathsFrom, pathsFrom, List.map_append, pathsFrom_mapAll f label (i + 1) rest,
      paths_map f child, List.map_map, List.map_map]
    rfl

end

theorem pathsBelow_map (f : α → β) (t : Tree α) :
    (t.map f).pathsBelow = t.pathsBelow.map (Path.map f) := by
  cases t
  rw [map]
  exact pathsFrom_mapAll f _ 0 _

/-- The labels on a path are labels of the tree. -/
theorem labels_of_mem_paths {t : Tree α} : ∀ {p : Path α}, p ∈ t.paths →
    p.label ∈ t.labels ∧ ∀ step ∈ p.steps, step.1 ∈ t.labels := by
  induction t with
  | node label children ih =>
    have hlift : ∀ c ∈ children, ∀ x ∈ c.labels, x ∈ (node label children).labels := by
      intro c hc x hx
      obtain ⟨q, hq, rfl⟩ := List.mem_map.mp hx
      obtain ⟨i, hi⟩ := List.mem_iff_getElem?.mp hc
      refine List.mem_map.mpr ⟨q.cons label i, ?_, rfl⟩
      rw [paths_eq]
      exact List.mem_cons_of_mem _ (mem_pathsBelow.mpr ⟨i, c, hi, q, hq, rfl⟩)
    intro p hp
    refine ⟨List.mem_map_of_mem hp, ?_⟩
    rw [paths_eq, List.mem_cons] at hp
    rcases hp with rfl | hp
    · simp
    · obtain ⟨i, c, hc, q, hq, rfl⟩ := mem_pathsBelow.mp hp
      have hmem := List.mem_of_getElem? hc
      intro step hstep
      rcases List.mem_cons.mp hstep with rfl | hstep
      · rw [labels, paths_eq]
        exact List.mem_cons_self
      · exact hlift c hmem _ ((ih c hmem hq).2 step hstep)

/-! ## 2. Different nodes have different steps -/

mutual

theorem nodup_steps : ∀ t : Tree α, (t.paths.map Path.steps).Nodup
  | node label children => by
    rw [paths, List.map_cons, List.nodup_cons]
    refine ⟨?_, nodup_steps_pathsFrom label 0 children⟩
    rintro hmem
    obtain ⟨p, hp, hnil⟩ := List.mem_map.mp hmem
    obtain ⟨j, c, -, q, -, rfl⟩ := mem_pathsFrom.mp hp
    cases hnil

theorem nodup_steps_pathsFrom (label : α) (i : ℕ) : ∀ children : List (Tree α),
    ((pathsFrom label i children).map Path.steps).Nodup
  | [] => List.nodup_nil
  | child :: rest => by
    rw [pathsFrom, List.map_append]
    refine List.nodup_append.mpr ⟨?_, nodup_steps_pathsFrom label (i + 1) rest, ?_⟩
    · rw [List.map_map, show Path.steps ∘ Path.cons label i =
        (fun steps => (label, i) :: steps) ∘ Path.steps from rfl, ← List.map_map]
      exact (nodup_steps child).map fun s s' h => (List.cons.inj h).2
    · rintro a ha b hb rfl
      obtain ⟨p, hp, hsteps⟩ := List.mem_map.mp ha
      obtain ⟨q, -, rfl⟩ := List.mem_map.mp hp
      obtain ⟨p', hp', rfl⟩ := List.mem_map.mp hb
      obtain ⟨j, c, -, q', -, rfl⟩ := mem_pathsFrom.mp hp'
      -- the children of the rest have higher indices
      have hindex := congrArg Prod.snd (List.cons.inj hsteps).1
      simp only at hindex
      omega

end

theorem nodup_steps_below (t : Tree α) : (t.pathsBelow.map Path.steps).Nodup :=
  nodup_steps_pathsFrom ..

/-! ## 3. Rebuilding -/

/-- The path of a node below the child `i`, seen from that child. -/
def inChild (i : ℕ) (p : Path α) : Option (Path α) :=
  match p.steps with
  | (_, j) :: step :: rest => if j = i then some ⟨step :: rest, p.label⟩ else none
  | _ => none

/-- The tree under a node with the given label, from the paths below it; `depth` bounds them. -/
def rebuildFrom : ℕ → α → List (Path α) → Tree α
  | 0, label, _ => node label []
  | depth + 1, label, ps =>
    node label <| (List.range ps.length).filterMap fun i =>
      (ps.find? fun p => p.steps.map Prod.snd = [i]).map fun p =>
        rebuildFrom depth p.label (ps.filterMap (inChild i))

/-- The tree with the given paths below its root. -/
def rebuild (ps : List (Path α)) : Option (Tree α) := do
  let p ← ps.head?
  let step ← p.steps.head?
  return rebuildFrom ((ps.map (·.steps.length)).max?.getD 0) step.1 ps

section
variable {t : Tree α} {ps : List (Path α)}

/-- A node below the child `i`. -/
theorem inChild_eq_some_iff (h : ∀ p, p ∈ ps ↔ p ∈ t.pathsBelow) {i : ℕ} {c : Tree α}
    (hc : t.children[i]? = some c) {q : Path α} :
    q ∈ ps.filterMap (inChild i) ↔ q ∈ c.pathsBelow := by
  rw [List.mem_filterMap]
  constructor
  · rintro ⟨p, hp, hq⟩
    obtain ⟨j, c', hc', r, hr, rfl⟩ := mem_pathsBelow.mp ((h p).mp hp)
    rw [paths_eq, List.mem_cons] at hr
    rcases hr with rfl | hr
    · cases hq
    obtain ⟨k, d, hd, r', hr', rfl⟩ := mem_pathsBelow.mp hr
    simp only [inChild, Path.steps_cons, Path.label_cons, Option.ite_none_right_eq_some] at hq
    obtain ⟨rfl, hq⟩ := hq
    cases hc.symm.trans hc'
    cases hq
    exact hr
  · intro hq
    refine ⟨q.cons t.label i, (h _).mpr (mem_pathsBelow.mpr ⟨i, c, hc, q, ?_, rfl⟩), ?_⟩
    · rw [paths_eq]
      exact List.mem_cons_of_mem _ hq
    · obtain ⟨j, d, -, r, -, rfl⟩ := mem_pathsBelow.mp hq
      simp only [inChild, Path.steps_cons, Path.label_cons, if_true]
      rfl

/-- The path of the child `i` is found if there is such a child. -/
theorem find?_child (h : ∀ p, p ∈ ps ↔ p ∈ t.pathsBelow) (i : ℕ) :
    (ps.find? fun p => p.steps.map Prod.snd = [i]) =
      t.children[i]?.map fun c => ⟨[(t.label, i)], c.label⟩ := by
  have hown : ∀ p ∈ ps, p.steps.map Prod.snd = [i] →
      ∃ c, t.children[i]? = some c ∧ p = ⟨[(t.label, i)], c.label⟩ := by
    intro p hp hsteps
    obtain ⟨j, c, hc, q, hq, rfl⟩ := mem_pathsBelow.mp ((h p).mp hp)
    rw [Path.steps_cons, List.map_cons, List.cons.injEq, List.map_eq_nil_iff] at hsteps
    obtain ⟨rfl, hnil⟩ := hsteps
    refine ⟨c, hc, ?_⟩
    rw [paths_eq, List.mem_cons] at hq
    rcases hq with rfl | hq
    · rfl
    · obtain ⟨k, d, -, r, -, rfl⟩ := mem_pathsBelow.mp hq
      cases hnil
  cases hfind : ps.find? fun p => p.steps.map Prod.snd = [i] with
  | some p =>
    obtain ⟨c, hc, rfl⟩ := hown p (List.mem_of_find?_eq_some hfind)
      (by simpa using List.find?_some hfind)
    rw [hc, Option.map_some]
  | none =>
    cases hc : t.children[i]? with
    | none => rfl
    | some c =>
      have hmem := (h _).mpr (child_mem_pathsBelow hc)
      exact absurd (List.find?_eq_none.mp hfind _ hmem) (by simp)

/-- There are at least as many paths as children. -/
theorem length_children_le (h : ∀ p, p ∈ ps ↔ p ∈ t.pathsBelow) :
    t.children.length ≤ ps.length := by
  -- every index is the first step of some path
  have hsub : List.range t.children.length ⊆ ps.filterMap fun p => (p.steps.map Prod.snd).head? := by
    intro i hi
    have hc := List.getElem?_eq_getElem (List.mem_range.mp hi)
    exact List.mem_filterMap.mpr ⟨_, (h _).mpr (child_mem_pathsBelow hc), rfl⟩
  calc t.children.length
    _ = (List.range t.children.length).length := List.length_range.symm
    _ ≤ (ps.filterMap fun p => (p.steps.map Prod.snd).head?).length :=
      (List.nodup_range.subperm hsub).length_le
    _ ≤ ps.length := List.length_filterMap_le _ _

theorem filterMap_range_getElem? (l : List β) {n : ℕ} (h : l.length ≤ n) :
    (List.range n).filterMap (l[·]?) = l := by
  have htake : ∀ n : ℕ, (List.range n).filterMap (l[·]?) = l.take n := by
    intro n
    induction n with
    | zero => rfl
    | succ n ih =>
      rw [List.range_succ, List.filterMap_append, ih, List.take_add_one, List.filterMap_cons]
      cases l[n]? <;> rfl
  rw [htake, List.take_of_length_le h]

theorem rebuildFrom_eq (depth : ℕ) : ∀ {t : Tree α} {ps : List (Path α)},
    (∀ p, p ∈ ps ↔ p ∈ t.pathsBelow) → (∀ p ∈ ps, p.steps.length ≤ depth) →
    rebuildFrom depth t.label ps = t := by
  induction depth with
  | zero =>
    rintro ⟨label, children⟩ ps h hle
    have hnil : (node label children).pathsBelow = [] := by
      rw [List.eq_nil_iff_forall_not_mem]
      intro p hp
      obtain ⟨i, c, -, q, -, rfl⟩ := mem_pathsBelow.mp hp
      exact absurd (hle _ ((h _).mpr hp)) (by simp)
    rw [pathsBelow_eq_nil_iff, children_node] at hnil
    rw [hnil, rebuildFrom]
    rfl
  | succ depth ih =>
    rintro ⟨label, children⟩ ps h hle
    have hchild : ∀ i, ((ps.find? fun p => p.steps.map Prod.snd = [i]).map fun p =>
        rebuildFrom depth p.label (ps.filterMap (inChild i))) = children[i]? := by
      intro i
      rw [find?_child h, Option.map_map, children_node]
      cases hc : children[i]? with
      | none => rfl
      | some c =>
        refine congrArg some (ih (fun q => inChild_eq_some_iff h hc) fun q hq => ?_)
        obtain ⟨p, hp, hin⟩ := List.mem_filterMap.mp hq
        have hlen := hle p hp
        unfold inChild at hin
        split at hin
        · next hsteps =>
          obtain ⟨-, hq'⟩ := Option.ite_none_right_eq_some.mp hin
          cases hq'
          rw [hsteps] at hlen
          simpa using hlen
        · cases hin
    rw [rebuildFrom, List.filterMap_congr fun i _ => hchild i,
      filterMap_range_getElem? children (length_children_le h)]
    rfl

/-- A tree with more than a root is rebuilt from the paths below the root. -/
theorem rebuild_eq (h : ∀ p, p ∈ ps ↔ p ∈ t.pathsBelow) (hne : t.children ≠ []) :
    rebuild ps = some t := by
  have hps : ps ≠ [] := by
    obtain ⟨p, hp⟩ := List.exists_mem_of_ne_nil _ (mt pathsBelow_eq_nil_iff.mp hne)
    exact List.ne_nil_of_mem ((h p).mpr hp)
  obtain ⟨p, rest, rfl⟩ := List.exists_cons_of_ne_nil hps
  obtain ⟨i, c, -, q, -, rfl⟩ := mem_pathsBelow.mp ((h p).mp List.mem_cons_self)
  exact congrArg some (rebuildFrom_eq _ h fun p hp =>
    List.le_max?_getD_of_mem (List.mem_map_of_mem hp))

end

end Tree

end Erascope
