import Mathlib.Algebra.BigOperators.Group.List.Basic
import Mathlib.Tactic

/-!
# Keyed tables

A database table with a unique key, and equally a dictionary built with `keyBy`, is a list
of rows whose keys are pairwise different. The uniqueness is a field of the structure, so a
table with two rows of one key cannot be built.

* `get?` reads the row of a key, `upsert` is `INSERT ... ON CONFLICT (key) DO UPDATE` and
  `upsertAll` writes a list of rows in order.
* A table is determined by `get?` up to the order of its rows (`perm_of_get?_eq`), so a sum
  over the rows is too (`sum_eq_of_get?_eq`).
* `sum_upsert` says what one write does to such a sum.
-/

namespace Erascope

/-- A table: rows with pairwise different keys. -/
structure Table {κ ρ : Type} (key : ρ → κ) where
  rows : List ρ
  nodup : (rows.map key).Nodup

namespace Table

variable {κ ρ : Type} [DecidableEq κ] {key : ρ → κ}

/-! ## 1. Operations -/

/-- Replace the row with the key of `r` by `r`, or append `r`. -/
def upsertRow (key : ρ → κ) (r : ρ) : List ρ → List ρ
  | [] => [r]
  | x :: xs => if key x = key r then r :: xs else x :: upsertRow key r xs

theorem mem_map_upsertRow {r : ρ} {l : List ρ} {k : κ} :
    k ∈ (upsertRow key r l).map key ↔ k = key r ∨ k ∈ l.map key := by
  induction l with
  | nil => simp [upsertRow]
  | cons x xs ih =>
    by_cases h : key x = key r
    · simp [upsertRow, h]
    · simp only [upsertRow, h, if_false, List.map_cons, List.mem_cons, ih]
      tauto

theorem nodup_upsertRow {r : ρ} {l : List ρ} (h : (l.map key).Nodup) :
    ((upsertRow key r l).map key).Nodup := by
  induction l with
  | nil => simp [upsertRow]
  | cons x xs ih =>
    rw [List.map_cons, List.nodup_cons] at h
    by_cases hx : key x = key r
    · simp only [upsertRow, hx, if_true, List.map_cons, List.nodup_cons]
      exact ⟨hx ▸ h.1, h.2⟩
    · simp only [upsertRow, hx, if_false, List.map_cons, List.nodup_cons]
      refine ⟨fun hmem => ?_, ih h.2⟩
      rcases mem_map_upsertRow.mp hmem with he | hm
      · exact hx he
      · exact h.1 hm

/-- The table without rows. -/
def empty : Table key := ⟨[], List.nodup_nil⟩

/-- The row of the key `k`, if there is one. -/
def get? (t : Table key) (k : κ) : Option ρ := t.rows.find? fun r => key r = k

/-- Insert `r`, or overwrite the row that has its key. -/
def upsert (t : Table key) (r : ρ) : Table key := ⟨upsertRow key r t.rows, nodup_upsertRow t.nodup⟩

/-- Write the rows `rs` one after the other. -/
def upsertAll (t : Table key) (rs : List ρ) : Table key := rs.foldl upsert t

/-- The rows that satisfy `p`. -/
def filter (t : Table key) (p : ρ → Bool) : Table key :=
  ⟨t.rows.filter p, (List.filter_sublist.map key).nodup t.nodup⟩

/-- A change of every row that keeps the keys. -/
def mapRows (t : Table key) (f : ρ → ρ) (hf : ∀ r, key (f r) = key r) : Table key :=
  ⟨t.rows.map f, by simpa only [List.map_map, Function.comp_def, hf] using t.nodup⟩

/-- The sum of `f` over all rows. -/
def sum {M : Type} [AddCommMonoid M] (t : Table key) (f : ρ → M) : M := (t.rows.map f).sum

/-! ## 2. Reading after writing -/

@[simp] theorem get?_empty (k : κ) : (empty : Table key).get? k = none := rfl

theorem key_of_get? {t : Table key} {k : κ} {r : ρ} (h : t.get? k = some r) : key r = k := by
  simpa using List.find?_some h

theorem mem_of_get? {t : Table key} {k : κ} {r : ρ} (h : t.get? k = some r) : r ∈ t.rows :=
  List.mem_of_find?_eq_some h

theorem find?_upsertRow (r : ρ) (l : List ρ) (k : κ) :
    (upsertRow key r l).find? (fun x => key x = k) =
      if key r = k then some r else l.find? fun x => key x = k := by
  induction l with
  | nil => by_cases h : key r = k <;> simp [upsertRow, h]
  | cons x xs ih =>
    by_cases hx : key x = key r
    · by_cases h : key r = k <;> simp [upsertRow, hx, h]
    · by_cases hk : key x = k
      · have hr : ¬ key r = k := fun h => hx (hk.trans h.symm)
        rw [upsertRow, if_neg hx, if_neg hr, List.find?_cons, List.find?_cons, decide_eq_true hk]
      · simp only [upsertRow, hx, if_false, List.find?_cons, hk, decide_false, ih]

@[simp] theorem get?_upsert (t : Table key) (r : ρ) (k : κ) :
    (t.upsert r).get? k = if key r = k then some r else t.get? k :=
  find?_upsertRow r t.rows k

theorem get?_eq_some_iff {t : Table key} {k : κ} {r : ρ} :
    t.get? k = some r ↔ r ∈ t.rows ∧ key r = k := by
  constructor
  · intro h
    exact ⟨mem_of_get? h, key_of_get? h⟩
  · rintro ⟨hm, hk⟩
    obtain ⟨rows, hnd⟩ := t
    simp only [get?] at hm ⊢
    induction rows with
    | nil => simp at hm
    | cons x xs ih =>
      rw [List.map_cons, List.nodup_cons] at hnd
      rcases List.mem_cons.mp hm with rfl | hm
      · simp [hk]
      · have hx : key x ≠ k := fun h =>
          hnd.1 (h ▸ hk ▸ List.mem_map_of_mem hm)
        rw [List.find?_cons, decide_eq_false hx]
        exact ih hnd.2 hm

theorem get?_eq_none_iff {t : Table key} {k : κ} :
    t.get? k = none ↔ ∀ r ∈ t.rows, key r ≠ k := by
  simp [get?]

theorem get?_filter (t : Table key) (p : ρ → Bool) (k : κ) :
    (t.filter p).get? k = (t.get? k).filter p := by
  cases h : t.get? k with
  | none =>
    rw [Option.filter_none, get?_eq_none_iff]
    intro r hr
    exact get?_eq_none_iff.mp h r (List.mem_of_mem_filter hr)
  | some r =>
    obtain ⟨hm, hk⟩ := get?_eq_some_iff.mp h
    cases hp : p r with
    | true =>
      rw [Option.filter_some_pos hp, get?_eq_some_iff]
      exact ⟨List.mem_filter.mpr ⟨hm, hp⟩, hk⟩
    | false =>
      rw [Option.filter_some_neg (by simp [hp]), get?_eq_none_iff]
      intro x hx hxk
      obtain ⟨hxm, hxp⟩ := List.mem_filter.mp hx
      have hsame : some x = some r := (get?_eq_some_iff.mpr ⟨hxm, hxk⟩).symm.trans h
      cases hsame
      rw [hp] at hxp
      cases hxp

theorem get?_mapRows (t : Table key) (f : ρ → ρ) (hf : ∀ r, key (f r) = key r) (k : κ) :
    (t.mapRows f hf).get? k = (t.get? k).map f := by
  simp only [get?, mapRows, List.find?_map, Function.comp_def, hf]

/-- A row with a new key is appended. -/
theorem rows_upsert_new {t : Table key} {r : ρ} (h : t.get? (key r) = none) :
    (t.upsert r).rows = t.rows ++ [r] := by
  have hne := get?_eq_none_iff.mp h
  obtain ⟨l, hnd⟩ := t
  simp only [upsert] at hne ⊢
  clear hnd h
  induction l with
  | nil => rfl
  | cons x xs ih =>
    rw [upsertRow, if_neg (hne x List.mem_cons_self),
      ih fun y hy => hne y (List.mem_cons_of_mem x hy)]
    rfl

theorem mem_upsertRow {r x : ρ} {l : List ρ} (hnd : (l.map key).Nodup) :
    x ∈ upsertRow key r l ↔ x = r ∨ (x ∈ l ∧ key x ≠ key r) := by
  induction l with
  | nil => simp [upsertRow]
  | cons y ys ih =>
    rw [List.map_cons, List.nodup_cons] at hnd
    by_cases hy : key y = key r
    · have hother : ∀ z ∈ ys, key z ≠ key r := fun z hz h =>
        hnd.1 (hy ▸ h ▸ List.mem_map_of_mem hz)
      simp only [upsertRow, hy, if_true, List.mem_cons]
      constructor
      · rintro (h | h)
        · exact Or.inl h
        · exact Or.inr ⟨Or.inr h, hother x h⟩
      · rintro (h | ⟨rfl | h, hne⟩)
        · exact Or.inl h
        · exact absurd hy hne
        · exact Or.inr h
    · simp only [upsertRow, hy, if_false, List.mem_cons, ih hnd.2]
      constructor
      · rintro (rfl | h | ⟨h, hne⟩)
        · exact Or.inr ⟨Or.inl rfl, hy⟩
        · exact Or.inl h
        · exact Or.inr ⟨Or.inr h, hne⟩
      · rintro (h | ⟨h | h, hne⟩)
        · exact Or.inr (Or.inl h)
        · exact Or.inl h
        · exact Or.inr (Or.inr ⟨h, hne⟩)

/-- The rows after a write. -/
theorem mem_rows_upsert {t : Table key} {r x : ρ} :
    x ∈ (t.upsert r).rows ↔ x = r ∨ (x ∈ t.rows ∧ key x ≠ key r) :=
  mem_upsertRow t.nodup

theorem nodup_map_upsertRow {ι : Type} {f : ρ → ι} {r : ρ} {l : List ρ}
    (hnd : (l.map key).Nodup) (hf : (l.map f).Nodup) (hnew : ∀ x ∈ l, key x ≠ key r → f x ≠ f r) :
    ((upsertRow key r l).map f).Nodup := by
  induction l with
  | nil => simp [upsertRow]
  | cons y ys ih =>
    rw [List.map_cons, List.nodup_cons] at hf
    have hkeys := List.nodup_cons.mp (List.map_cons (f := key) ▸ hnd)
    by_cases hy : key y = key r
    · have hother : f r ∉ ys.map f := by
        intro hmem
        obtain ⟨z, hz, hzr⟩ := List.mem_map.mp hmem
        have hne : key z ≠ key r := fun h => hkeys.1 (hy ▸ h ▸ List.mem_map_of_mem hz)
        exact hnew z (List.mem_cons_of_mem y hz) hne hzr
      rw [upsertRow, if_pos hy, List.map_cons, List.nodup_cons]
      exact ⟨hother, hf.2⟩
    · rw [upsertRow, if_neg hy, List.map_cons, List.nodup_cons]
      refine ⟨fun hmem => ?_, ih hkeys.2 hf.2 fun x hx => hnew x (List.mem_cons_of_mem y hx)⟩
      obtain ⟨z, hz, hzy⟩ := List.mem_map.mp hmem
      rcases (mem_upsertRow hkeys.2).mp hz with rfl | ⟨hz, _⟩
      · exact hnew y List.mem_cons_self hy hzy.symm
      · exact hf.1 (hzy ▸ List.mem_map_of_mem hz)

/-- Another column stays unique when no row with another key has the new value. -/
theorem nodup_map_rows_upsert {ι : Type} {f : ρ → ι} {t : Table key} {r : ρ}
    (hf : (t.rows.map f).Nodup) (hnew : ∀ x ∈ t.rows, key x ≠ key r → f x ≠ f r) :
    ((t.upsert r).rows.map f).Nodup :=
  nodup_map_upsertRow t.nodup hf hnew

/-- Writing the rows of a table: its rows win over the old ones. -/
theorem get?_upsertAll (t d : Table key) (k : κ) :
    (t.upsertAll d.rows).get? k = (d.get? k).or (t.get? k) := by
  obtain ⟨rs, hnd⟩ := d
  simp only [upsertAll, get?]
  induction rs generalizing t with
  | nil => simp
  | cons r rs ih =>
    rw [List.map_cons, List.nodup_cons] at hnd
    rw [List.foldl_cons, ih (t.upsert r) hnd.2]
    by_cases hk : key r = k
    · have hnone : rs.find? (fun x => key x = k) = none := by
        rw [List.find?_eq_none]
        intro x hx
        simp only [decide_eq_true_eq]
        exact fun h => hnd.1 (hk ▸ h ▸ List.mem_map_of_mem hx)
      have hup := get?_upsert t r k
      simp only [get?] at hup
      simp [hnone, hup, hk]
    · have hup := get?_upsert t r k
      simp only [get?] at hup
      simp [hup, hk]

/-- Writing rows with other keys. -/
theorem get?_upsertAll_of_ne {t : Table key} {rs : List ρ} {k : κ} (h : ∀ r ∈ rs, key r ≠ k) :
    (t.upsertAll rs).get? k = t.get? k := by
  unfold upsertAll
  induction rs generalizing t with
  | nil => rfl
  | cons r rs ih =>
    rw [List.foldl_cons, ih fun r' hr' => h r' (List.mem_cons_of_mem r hr'), get?_upsert,
      if_neg (h r List.mem_cons_self)]

/-- Writing rows one of which is the only one with its key. -/
theorem get?_upsertAll_of_mem {t : Table key} {rs : List ρ} {r : ρ} (hr : r ∈ rs)
    (honly : ∀ r' ∈ rs, key r' = key r → r' = r) : (t.upsertAll rs).get? (key r) = some r := by
  unfold upsertAll
  induction rs generalizing t with
  | nil => cases hr
  | cons x xs ih =>
    by_cases hxs : r ∈ xs
    · exact ih hxs fun r' hr' => honly r' (List.mem_cons_of_mem x hr')
    · rcases List.mem_cons.mp hr with rfl | hmem
      · have hne : ∀ r' ∈ xs, key r' ≠ key r := fun r' hr' hk =>
          hxs (honly r' (List.mem_cons_of_mem r hr') hk ▸ hr')
        have hget := get?_upsertAll_of_ne (t := t.upsert r) hne
        rw [get?_upsert, if_pos rfl] at hget
        exact hget
      · exact absurd hmem hxs

/-! ## 3. Sums -/

theorem perm_of_get?_eq {t t' : Table key} (h : ∀ k, t.get? k = t'.get? k) :
    t.rows.Perm t'.rows := by
  refine (List.perm_ext_iff_of_nodup (List.Nodup.of_map _ t.nodup)
    (List.Nodup.of_map _ t'.nodup)).mpr fun r => ?_
  have hiff : ∀ s : Table key, r ∈ s.rows ↔ s.get? (key r) = some r := fun s => by
    simp [get?_eq_some_iff]
  rw [hiff, hiff, h]

theorem sum_eq_of_get?_eq {M : Type} [AddCommMonoid M] {t t' : Table key}
    (h : ∀ k, t.get? k = t'.get? k) (f : ρ → M) : t.sum f = t'.sum f :=
  ((perm_of_get?_eq h).map f).sum_eq

omit [DecidableEq κ] in
@[simp] theorem sum_empty {M : Type} [AddCommMonoid M] (f : ρ → M) :
    (empty : Table key).sum f = 0 := rfl

/-- One write changes a sum by the new row minus the row it replaces. -/
theorem sum_upsert {M : Type} [AddCommGroup M] (t : Table key) (r : ρ) (f : ρ → M) :
    (t.upsert r).sum f = t.sum f - ((t.get? (key r)).map f).getD 0 + f r := by
  obtain ⟨l, hnd⟩ := t
  simp only [sum, upsert, get?]
  clear hnd
  induction l with
  | nil => simp [upsertRow]
  | cons x xs ih =>
    by_cases hx : key x = key r
    · simp only [upsertRow, hx, if_true, List.map_cons, List.sum_cons, List.find?_cons,
        decide_true, Option.map_some, Option.getD_some]
      abel
    · simp only [upsertRow, hx, if_false, List.map_cons, List.sum_cons, List.find?_cons,
        decide_false, ih]
      abel

/-- Rows with new keys add their values to a sum. -/
theorem sum_upsertAll_new {M : Type} [AddCommGroup M] {t : Table key} {rs : List ρ}
    (hnd : (rs.map key).Nodup) (hnew : ∀ r ∈ rs, t.get? (key r) = none) (f : ρ → M) :
    (t.upsertAll rs).sum f = t.sum f + (rs.map f).sum := by
  unfold upsertAll
  induction rs generalizing t with
  | nil => simp
  | cons r rs ih =>
    rw [List.map_cons, List.nodup_cons] at hnd
    have hnew' : ∀ x ∈ rs, (t.upsert r).get? (key x) = none := by
      intro x hx
      have hne : key r ≠ key x := fun h => hnd.1 (h ▸ List.mem_map_of_mem hx)
      rw [get?_upsert, if_neg hne]
      exact hnew x (List.mem_cons_of_mem r hx)
    rw [List.foldl_cons, ih hnd.2 hnew', sum_upsert, hnew r List.mem_cons_self]
    simp only [Option.map_none, Option.getD_none, sub_zero, List.map_cons, List.sum_cons]
    exact add_assoc _ _ _

end Table

end Erascope
