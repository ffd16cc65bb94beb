import Mathlib.Algebra.Order.BigOperators.Group.List
import Mathlib.Tactic

/-!
# Lists in pairs

`List.Forall₂ R xs ys` pairs the members of two lists: the answers of a database with the rows
they are about, or nodes with what they show. A member of one list has a partner in the other
(`exists_left`), a relation that can be met for each member can be met for the list
(`exists_forall₂`), and where each pair is in order and the sums are equal, each pair is equal
(`eq_of_sum_eq`).
-/

namespace Erascope.Paired

variable {α β : Type} {R : α → β → Prop}

theorem exists_left {xs : List α} {ys : List β} (h : List.Forall₂ R xs ys) {y : β} (hy : y ∈ ys) :
    ∃ x ∈ xs, R x y := by
  induction h with
  | nil => cases hy
  | cons hxy _ ih =>
    rcases List.mem_cons.mp hy with rfl | hy
    · exact ⟨_, List.mem_cons_self, hxy⟩
    · obtain ⟨x, hx, hR⟩ := ih hy
      exact ⟨x, List.mem_cons_of_mem _ hx, hR⟩

theorem exists_right {xs : List α} {ys : List β} (h : List.Forall₂ R xs ys) {x : α} (hx : x ∈ xs) :
    ∃ y ∈ ys, R x y :=
  exists_left h.flip hx

theorem exists_forall₂ {xs : List α} (h : ∀ x ∈ xs, ∃ y, R x y) : ∃ ys, List.Forall₂ R xs ys := by
  induction xs with
  | nil => exact ⟨[], .nil⟩
  | cons x xs ih =>
    obtain ⟨⟨y, hy⟩, hxs⟩ := List.forall_mem_cons.mp h
    obtain ⟨ys, hys⟩ := ih hxs
    exact ⟨y :: ys, .cons hy hys⟩

/-- Two lists in pairs with one list are in pairs. -/
theorem comp {γ : Type} {S : α → γ → Prop} {xs : List α} {ys : List β} {zs : List γ}
    (hys : List.Forall₂ R xs ys) (hzs : List.Forall₂ S xs zs) :
    List.Forall₂ (fun y z => ∃ x, R x y ∧ S x z) ys zs := by
  induction hys generalizing zs with
  | nil =>
    cases hzs
    exact .nil
  | cons hxy _ ih =>
    cases hzs with
    | cons hxz hrest => exact .cons ⟨_, hxy, hxz⟩ (ih hrest)

variable {f : α → ℕ} {g : β → ℕ}

theorem sum_le_sum {xs : List α} {ys : List β} (h : List.Forall₂ (fun x y => f x ≤ g y) xs ys) :
    (xs.map f).sum ≤ (ys.map g).sum := by
  induction h with
  | nil => exact le_rfl
  | cons hxy _ ih =>
    rw [List.map_cons, List.map_cons, List.sum_cons, List.sum_cons]
    exact add_le_add hxy ih

/-- Terms in order with equal sums are equal. -/
theorem eq_of_sum_eq {xs : List α} {ys : List β} (h : List.Forall₂ (fun x y => f x ≤ g y) xs ys)
    (hsum : (xs.map f).sum = (ys.map g).sum) : List.Forall₂ (fun x y => f x = g y) xs ys := by
  induction h with
  | nil => exact .nil
  | cons hxy hrest ih =>
    have hle := sum_le_sum hrest
    rw [List.map_cons, List.map_cons, List.sum_cons, List.sum_cons] at hsum
    exact .cons (by omega) (ih (by omega))

end Erascope.Paired
