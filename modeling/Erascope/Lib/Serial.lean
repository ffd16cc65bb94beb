import Mathlib.Data.List.Perm.Basic
import Mathlib.Tactic

/-!
# Tables with a serial id and a unique column

A table of a database whose rows take their ids from a sequence and differ in one column. An
insertion of several rows is one statement: it fails as a whole when a value of the column would
occur twice.

* `Serial`: the rows with their ids; the order of the ids and the unique column are fields.
* `insert`: the next ids in order, or `none`.
* `idOf`, `rowOf`: the id of a value of the column, and the row of an id.
* `modify`: an update that keeps the column.
-/

namespace Erascope

/-- A row with its id. -/
structure Numbered (ρ : Type) where
  id : ℕ
  row : ρ
deriving DecidableEq, Repr

/-- A table with ids from a sequence and the unique column `key`. -/
structure Serial {κ ρ : Type} (key : ρ → κ) where
  rows : List (Numbered ρ)
  nextId : ℕ
  id_lt : ∀ r ∈ rows, r.id < nextId
  sorted : rows.Pairwise fun a b => a.id < b.id
  nodup : (rows.map fun r => key r.row).Nodup

namespace Serial

variable {κ ρ : Type} {key : ρ → κ}

/-- The table without rows. -/
def empty : Serial key := ⟨[], 1, by simp, List.Pairwise.nil, List.nodup_nil⟩

/-- The rows of `new` with the ids `n, n + 1, ...` -/
def number : ℕ → List ρ → List (Numbered ρ)
  | _, [] => []
  | n, r :: rs => ⟨n, r⟩ :: number (n + 1) rs

/-- The values of the unique column. -/
def keys (t : Serial key) : List κ := t.rows.map fun r => key r.row

/-- The rows without their ids. -/
def data (t : Serial key) : List ρ := t.rows.map (·.row)

theorem keys_eq_map_data (t : Serial key) : t.keys = t.data.map key := by
  rw [keys, data, List.map_map]
  rfl

theorem id_of_mem_number {n : ℕ} {new : List ρ} {r : Numbered ρ} (h : r ∈ number n new) :
    n ≤ r.id ∧ r.id < n + new.length := by
  induction new generalizing n with
  | nil => cases h
  | cons x xs ih =>
    rcases List.mem_cons.mp h with rfl | h
    · simp
    · have hx := ih h
      rw [List.length_cons]
      omega

theorem sorted_number (n : ℕ) (new : List ρ) :
    (number n new).Pairwise fun a b => a.id < b.id := by
  induction new generalizing n with
  | nil => exact List.Pairwise.nil
  | cons x xs ih => exact List.pairwise_cons.mpr ⟨fun r hr => (id_of_mem_number hr).1, ih (n + 1)⟩

@[simp] theorem map_row_number (n : ℕ) (new : List ρ) : (number n new).map (·.row) = new := by
  induction new generalizing n with
  | nil => rfl
  | cons x xs ih => rw [number, List.map_cons, ih]

theorem map_key_number (n : ℕ) (new : List ρ) :
    (number n new).map (fun r => key r.row) = new.map key := by
  have h : (number n new).map (fun r => key r.row) = ((number n new).map (·.row)).map key := by
    rw [List.map_map]
    rfl
  rw [h, map_row_number]

/-! ## 1. Ids -/

/-- The id determines the row. -/
theorem eq_of_id_eq {t : Serial key} {a b : Numbered ρ} (ha : a ∈ t.rows) (hb : b ∈ t.rows)
    (h : a.id = b.id) : a = b := by
  have hnd : (t.rows.map (·.id)).Nodup := List.pairwise_map.mpr (t.sorted.imp fun h => ne_of_lt h)
  exact List.inj_on_of_nodup_map hnd ha hb h

/-- So does the unique column. -/
theorem eq_of_key_eq {t : Serial key} {a b : Numbered ρ} (ha : a ∈ t.rows) (hb : b ∈ t.rows)
    (h : key a.row = key b.row) : a = b :=
  List.inj_on_of_nodup_map t.nodup ha hb h

/-- The row of an id. -/
def rowOf (t : Serial key) (id : ℕ) : Option ρ := (t.rows.find? fun r => r.id = id).map (·.row)

theorem rowOf_of_mem {t : Serial key} {r : Numbered ρ} (h : r ∈ t.rows) :
    t.rowOf r.id = some r.row := by
  obtain ⟨x, hx⟩ : ∃ x, (t.rows.find? fun y => y.id = r.id) = some x := by
    rw [← Option.isSome_iff_exists, List.find?_isSome]
    exact ⟨r, h, by simp⟩
  have hid : x.id = r.id := by simpa using List.find?_some hx
  rw [rowOf, hx, eq_of_id_eq (List.mem_of_find?_eq_some hx) h hid]
  rfl

theorem rowOf_eq_some_iff {t : Serial key} {id : ℕ} {row : ρ} :
    t.rowOf id = some row ↔ ∃ r ∈ t.rows, r.id = id ∧ r.row = row := by
  constructor
  · intro h
    rw [rowOf, Option.map_eq_some_iff] at h
    obtain ⟨r, hr, hrow⟩ := h
    exact ⟨r, List.mem_of_find?_eq_some hr, by simpa using List.find?_some hr, hrow⟩
  · rintro ⟨r, hr, rfl, rfl⟩
    exact rowOf_of_mem hr

section
variable [DecidableEq κ]

/-- The id of a value of the unique column. -/
def idOf (t : Serial key) (k : κ) : Option ℕ :=
  (t.rows.find? fun r => key r.row = k).map (·.id)

theorem idOf_eq_some_iff {t : Serial key} {k : κ} {id : ℕ} :
    t.idOf k = some id ↔ ∃ r ∈ t.rows, r.id = id ∧ key r.row = k := by
  rw [idOf, Option.map_eq_some_iff]
  constructor
  · rintro ⟨r, hr, rfl⟩
    exact ⟨r, List.mem_of_find?_eq_some hr, rfl, by simpa using List.find?_some hr⟩
  · rintro ⟨r, hr, rfl, hk⟩
    obtain ⟨x, hx⟩ : ∃ x, (t.rows.find? fun y => key y.row = k) = some x := by
      rw [← Option.isSome_iff_exists, List.find?_isSome]
      exact ⟨r, hr, by simpa using hk⟩
    have hxk : key x.row = k := by simpa using List.find?_some hx
    exact ⟨x, hx, by rw [eq_of_key_eq (List.mem_of_find?_eq_some hx) hr (hxk.trans hk.symm)]⟩

theorem exists_idOf_iff {t : Serial key} {k : κ} : (∃ id, t.idOf k = some id) ↔ k ∈ t.keys := by
  simp only [idOf_eq_some_iff, keys, List.mem_map]
  constructor
  · rintro ⟨id, r, hr, -, hk⟩
    exact ⟨r, hr, hk⟩
  · rintro ⟨r, hr, hk⟩
    exact ⟨r.id, r, hr, rfl, hk⟩

theorem rowOf_idOf {t : Serial key} {k : κ} {id : ℕ} (h : t.idOf k = some id) :
    ∃ row, t.rowOf id = some row ∧ key row = k := by
  obtain ⟨r, hr, rfl, hk⟩ := idOf_eq_some_iff.mp h
  exact ⟨r.row, rowOf_of_mem hr, hk⟩

/-! ## 2. Insertions -/

/-- `insert(new)`; `none` when the unique column would hold a value twice. -/
def insert (t : Serial key) (new : List ρ) : Option (Serial key) :=
  if h : (t.keys ++ new.map key).Nodup then
    some {
      rows := t.rows ++ number t.nextId new
      nextId := t.nextId + new.length
      id_lt := by
        intro r hr
        rcases List.mem_append.mp hr with hr | hr
        · exact (t.id_lt r hr).trans_le (Nat.le_add_right _ _)
        · exact (id_of_mem_number hr).2
      sorted := List.pairwise_append.mpr ⟨t.sorted, sorted_number _ _,
        fun a ha b hb => (t.id_lt a ha).trans_le (id_of_mem_number hb).1⟩
      nodup := by
        rw [List.map_append, map_key_number]
        exact h }
  else none

@[simp] theorem insert_nil (t : Serial key) : t.insert [] = some t := by
  unfold insert
  rw [dif_pos (by simpa [keys] using t.nodup)]
  simp [number]

theorem exists_insert_iff {t : Serial key} {new : List ρ} :
    (∃ t', t.insert new = some t') ↔ (t.keys ++ new.map key).Nodup := by
  unfold insert
  split
  · next h => exact ⟨fun _ => h, fun _ => ⟨_, rfl⟩⟩
  · next h => exact ⟨fun ⟨_, ht⟩ => absurd ht (by simp), fun hnd => absurd hnd h⟩

theorem rows_of_insert {t t' : Serial key} {new : List ρ} (h : t.insert new = some t') :
    t'.rows = t.rows ++ number t.nextId new := by
  unfold insert at h
  split at h
  · rw [← Option.some.inj h]
  · cases h

theorem nextId_of_insert {t t' : Serial key} {new : List ρ} (h : t.insert new = some t') :
    t'.nextId = t.nextId + new.length := by
  unfold insert at h
  split at h
  · rw [← Option.some.inj h]
  · cases h

theorem data_of_insert {t t' : Serial key} {new : List ρ} (h : t.insert new = some t') :
    t'.data = t.data ++ new := by
  rw [data, rows_of_insert h, List.map_append, map_row_number]
  rfl

theorem keys_of_insert {t t' : Serial key} {new : List ρ} (h : t.insert new = some t') :
    t'.keys = t.keys ++ new.map key := by
  rw [keys_eq_map_data, data_of_insert h, List.map_append, ← keys_eq_map_data]

theorem rowOf_of_insert {t t' : Serial key} {new : List ρ} (h : t.insert new = some t') {id : ℕ}
    {row : ρ} (hrow : t.rowOf id = some row) : t'.rowOf id = some row := by
  obtain ⟨r, hr, rfl, rfl⟩ := rowOf_eq_some_iff.mp hrow
  refine rowOf_of_mem ?_
  rw [rows_of_insert h]
  exact List.mem_append_left _ hr

end

/-! ## 3. Updates -/

/-- An update that keeps the unique column. -/
def modify (t : Serial key) (f : ρ → ρ) (hf : ∀ r, key (f r) = key r) : Serial key where
  rows := t.rows.map fun r => ⟨r.id, f r.row⟩
  nextId := t.nextId
  id_lt := by
    intro r hr
    obtain ⟨x, hx, rfl⟩ := List.mem_map.mp hr
    exact t.id_lt x hx
  sorted := List.pairwise_map.mpr t.sorted
  nodup := by
    rw [List.map_map, show ((fun r : Numbered ρ => key r.row) ∘ fun r => ⟨r.id, f r.row⟩) =
      fun r : Numbered ρ => key r.row from funext fun r => hf r.row]
    exact t.nodup

theorem data_modify (t : Serial key) (f : ρ → ρ) (hf : ∀ r, key (f r) = key r) :
    (t.modify f hf).data = t.data.map f := by
  simp only [data, modify, List.map_map]
  rfl

end Serial

/-! ## 4. Rows of several sources -/

/-- When every source gives a row and no two rows have one key, every source gives one row. -/
theorem eq_singleton_of_nodup {α β κ : Type} {f : α → List β} {key : β → κ} {k : α → κ}
    {l : List α} (hkey : ∀ a ∈ l, ∀ b ∈ f a, key b = k a) (hnd : ((l.flatMap f).map key).Nodup)
    {a : α} (ha : a ∈ l) {b : β} (hb : b ∈ f a) : f a = [b] := by
  have hfa : ((f a).map key).Nodup := by
    induction l with
    | nil => cases ha
    | cons x l ih =>
      rw [List.flatMap_cons, List.map_append] at hnd
      rcases List.mem_cons.mp ha with rfl | ha
      · exact (List.nodup_append.mp hnd).1
      · exact ih (fun y hy => hkey y (List.mem_cons_of_mem x hy)) (List.nodup_append.mp hnd).2.1 ha
  have hka : (f a).map key = (f a).map fun _ => k a :=
    List.map_congr_left fun x hx => hkey a ha x hx
  rw [hka, List.map_const', List.nodup_replicate] at hfa
  obtain ⟨c, hc⟩ := List.length_eq_one_iff.mp (le_antisymm hfa (List.length_pos_of_mem hb))
  rw [hc] at hb ⊢
  rw [List.mem_singleton.mp hb]

/-- Sources with one row each. -/
theorem flatMap_map_some {α β : Type} {f : α → List β} {top : α → Option β} {l : List α}
    (h : ∀ a ∈ l, ∃ b, f a = [b] ∧ top a = some b) : (l.flatMap f).map some = l.map top := by
  induction l with
  | nil => rfl
  | cons a l ih =>
    obtain ⟨b, hb, htop⟩ := h a List.mem_cons_self
    rw [List.flatMap_cons, List.map_append, ih fun x hx => h x (List.mem_cons_of_mem a hx), hb,
      List.map_cons, List.map_cons, htop]
    rfl

/-- Two lists that say the same up to order have the same keys. -/
theorem map_perm_of_map_perm {α β γ κ : Type} {f : α → γ} {g : β → γ} {key : α → κ} {k : β → κ}
    {as : List α} {bs : List β} (h : (as.map f).Perm (bs.map g))
    (hkey : ∀ a ∈ as, ∀ b ∈ bs, f a = g b → key a = k b) : (as.map key).Perm (bs.map k) := by
  have hcomp : Relation.Comp (fun l m => l = List.map g m) List.Perm (as.map f) bs := by
    rw [List.eq_map_comp_perm]
    exact h
  obtain ⟨cs, hcs, hperm⟩ := hcomp
  have hmap : ∀ (as : List α) (cs : List β), (∀ a ∈ as, ∀ c ∈ cs, f a = g c → key a = k c) →
      as.map f = cs.map g → as.map key = cs.map k := by
    intro as
    induction as with
    | nil =>
      intro cs _ heq
      rw [List.map_nil, eq_comm, List.map_eq_nil_iff] at heq
      rw [heq]
      rfl
    | cons a as ih =>
      intro cs hkey heq
      cases cs with
      | nil => cases heq
      | cons c cs =>
        obtain ⟨hac, hrest⟩ := List.cons_eq_cons.mp heq
        rw [List.map_cons, List.map_cons, hkey a List.mem_cons_self c List.mem_cons_self hac,
          ih cs (fun x hx y hy => hkey x (List.mem_cons_of_mem a hx) y (List.mem_cons_of_mem c hy))
            hrest]
  rw [hmap as cs (fun a ha c hc => hkey a ha c (hperm.mem_iff.mp hc)) hcs]
  exact hperm.map k

end Erascope
