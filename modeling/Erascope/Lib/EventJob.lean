import Mathlib.Tactic
import Erascope.Lib.Fold
import Erascope.Lib.Rows

/-!
# Jobs that make a row of each event

A job reads the events of a range of heights, makes a row of each, and stores the rows together with
the end of the range; an event of which it can make no row ends the run without a trace. What the
job writes is then a replay of the events up to its checkpoint, whatever the ranges were, as long as
nothing that others write takes the meaning of a row away.

* `Replayed`: the rows are those of the events up to a height.
* `Replayed.keeps`, `Replayed.append`: what other writers and a run of the job keep.
* `Replayed.lt_height`: the checkpoint does not pass an event of which no row can be made.
-/

namespace Erascope

/-- The events that the query of a job selects, their heights, and the rows that may be made of an
event when the tables are `σ`. -/
structure EventJob (σ ε ρ : Type) where
  events : σ → List ε
  height : ε → ℕ
  Row : σ → ε → ρ → Prop

namespace EventJob

variable {σ ε ρ : Type} (J : EventJob σ ε ρ)

/-- The events up to a height. -/
def upTo (s : σ) (n : ℕ) : List ε := (J.events s).filter fun e => J.height e ≤ n

/-- The rows are those of the events up to `n`, one each. -/
def Replayed (s : σ) (n : ℕ) (rows : List ρ) : Prop :=
  ∃ es, es.Perm (J.upTo s n) ∧ List.Forall₂ (J.Row s) es rows

/-- From `s` to `s'` the events up to `n` and the rows made of them stay. -/
structure Keeps (s s' : σ) (n : ℕ) : Prop where
  events : (J.upTo s' n).Perm (J.upTo s n)
  row : ∀ e ∈ J.upTo s n, ∀ r, J.Row s e r → J.Row s' e r

variable {J} {s s' : σ} {n m : ℕ} {rows : List ρ}

theorem mem_upTo {e : ε} : e ∈ J.upTo s n ↔ e ∈ J.events s ∧ J.height e ≤ n := by
  simp only [upTo, List.mem_filter, decide_eq_true_eq]

/-- Events above `n` may be added, if the rows stay. -/
theorem keeps_of_append (new : List ε) (hevents : J.events s' = J.events s ++ new)
    (hnew : ∀ e ∈ new, n < J.height e)
    (hrow : ∀ e ∈ J.upTo s n, ∀ r, J.Row s e r → J.Row s' e r) : J.Keeps s s' n where
  events := by
    have hnone : new.filter (fun e => J.height e ≤ n) = [] :=
      List.filter_eq_nil_iff.mpr fun e he => by simpa using hnew e he
    rw [upTo, hevents, List.filter_append, hnone, List.append_nil]
    exact List.Perm.refl _
  row := hrow

/-- Before the first event. -/
theorem replayed_nil (h : J.events s = []) : J.Replayed s n [] := by
  refine ⟨[], ?_, List.Forall₂.nil⟩
  rw [upTo, h]
  exact List.Perm.refl _

/-- Every event up to the checkpoint has a row. -/
theorem Replayed.exists_row (h : J.Replayed s n rows) {e : ε} (he : e ∈ J.upTo s n) :
    ∃ r ∈ rows, J.Row s e r := by
  obtain ⟨es, hperm, hrows⟩ := h
  have hmem : ∀ {es : List ε} {rows : List ρ}, List.Forall₂ (J.Row s) es rows → e ∈ es →
      ∃ r ∈ rows, J.Row s e r := by
    intro es rows hrows he
    induction hrows with
    | nil => cases he
    | cons hrow hrest ih =>
      rcases List.mem_cons.mp he with rfl | he
      · exact ⟨_, List.mem_cons_self, hrow⟩
      · obtain ⟨r, hr, hrow⟩ := ih he
        exact ⟨r, List.mem_cons_of_mem _ hr, hrow⟩
  exact hmem hrows (hperm.mem_iff.mpr he)

/-- The checkpoint is below every event of which no row can be made. -/
theorem Replayed.lt_height (h : J.Replayed s n rows) {e : ε} (he : e ∈ J.events s)
    (hnone : ∀ r ∈ rows, ¬ J.Row s e r) : n < J.height e := by
  refine Nat.lt_of_not_le fun hle => ?_
  obtain ⟨r, hr, hrow⟩ := h.exists_row (mem_upTo.mpr ⟨he, hle⟩)
  exact hnone r hr hrow

theorem Replayed.keeps (h : J.Replayed s n rows) (hk : J.Keeps s s' n) : J.Replayed s' n rows := by
  obtain ⟨es, hperm, hrows⟩ := h
  refine ⟨es, hperm.trans hk.events.symm, ?_⟩
  have hmem : ∀ e ∈ es, e ∈ J.upTo s n := fun e he => hperm.mem_iff.mp he
  clear hperm
  induction hrows with
  | nil => exact List.Forall₂.nil
  | cons hrow hrest ih =>
    exact List.Forall₂.cons (hk.row _ (hmem _ List.mem_cons_self) _ hrow)
      (ih fun e he => hmem e (List.mem_cons_of_mem _ he))

/-- A range after what has been replayed. -/
theorem upTo_perm_append (J : EventJob σ ε ρ) (s : σ) (hle : n ≤ m) :
    (J.upTo s m).Perm (J.upTo s n ++ between J.height n m (J.events s)) := by
  refine (List.filter_append_perm (fun e => decide (J.height e ≤ n)) (J.upTo s m)).symm.trans ?_
  refine List.Perm.append (List.Perm.of_eq ?_) (List.Perm.of_eq ?_)
  · rw [upTo, upTo, List.filter_filter]
    refine List.filter_congr fun e _ => ?_
    simp only [← Bool.decide_and, decide_eq_decide]
    exact ⟨fun h => h.1, fun h => ⟨h, h.trans hle⟩⟩
  · rw [upTo, between, List.filter_filter]
    refine List.filter_congr fun e _ => ?_
    simp only [← decide_not, ← Bool.decide_and, not_le]

/-- A run from `n` to `m` that has read the events in any order. -/
theorem Replayed.append (h : J.Replayed s n rows) (hle : n ≤ m) {read : List ε} {new : List ρ}
    (hread : read.Perm (between J.height n m (J.events s)))
    (hnew : List.Forall₂ (J.Row s) read new) : J.Replayed s m (rows ++ new) := by
  obtain ⟨es, hperm, hrows⟩ := h
  exact ⟨es ++ read, (hperm.append hread).trans (upTo_perm_append J s hle).symm,
    List.rel_append hrows hnew⟩

end EventJob

/-- When the rows are the values of a function. -/
theorem forall₂_eq_some_iff {ε ρ : Type} {f : ε → Option ρ} {es : List ε} {rows : List ρ} :
    List.Forall₂ (fun e r => f e = some r) es rows ↔ es.map f = rows.map some := by
  rw [← List.forall₂_eq_eq_eq, List.forall₂_map_left_iff, List.forall₂_map_right_iff]

/-- An order in which a query without `orderBy` answers. -/
structure AnyOrder (ρ : Type) where
  order : List ρ → List ρ
  perm : ∀ l, (order l).Perm l

/-- The order of the table. -/
def AnyOrder.table {ρ : Type} : AnyOrder ρ := ⟨fun l => l, List.Perm.refl⟩

end Erascope
