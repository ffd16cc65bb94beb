import Mathlib.Data.List.Sort
import Mathlib.Tactic
import Erascope.Lib.Rows
import Erascope.Lib.Table

/-!
# The order of returned rows

A query with `orderBy` fixes the order of its rows only up to ties, a query without it not at all.
`Returned rank rows result` says that `result` is a possible answer: the rows, sorted by `rank`.

A job that writes the rows one after the other keeps the last one of each key
(`Table.get?_upsertAll_eq`). Over all possible answers these are the rows of the key that no other
row of it outranks (`Returned.le_of_getLast?`, `exists_returned_getLast?`). When the rank refines
the height, reading range after range gives the answers over all ranges (`reads_iff`).
-/

namespace Erascope

variable {ρ κ α : Type}

/-! ## 1. Answers of a query -/

section
variable [LinearOrder α] {rank : ρ → α} {rows result : List ρ}

/-- A possible answer of a query that sorts by `rank`. -/
def Returned (rank : ρ → α) (rows result : List ρ) : Prop :=
  result.Perm rows ∧ result.Pairwise fun a b => rank a ≤ rank b

/-- The rank of a query that does not sort. -/
def unsorted (_ : ρ) : PUnit := ⟨⟩

theorem returned_unsorted_iff : Returned unsorted rows result ↔ result.Perm rows := by
  refine ⟨And.left, fun h => ⟨h, ?_⟩⟩
  exact List.pairwise_of_forall fun _ _ => le_refl _

theorem Returned.mem_iff (h : Returned rank rows result) {r : ρ} : r ∈ result ↔ r ∈ rows :=
  h.1.mem_iff

theorem exists_returned (rank : ρ → α) (rows : List ρ) : ∃ result, Returned rank rows result := by
  have : Std.Total fun a b : ρ => rank a ≤ rank b := ⟨fun a b => le_total (rank a) (rank b)⟩
  have : IsTrans ρ fun a b : ρ => rank a ≤ rank b := ⟨fun _ _ _ => le_trans⟩
  exact ⟨rows.insertionSort fun a b => rank a ≤ rank b, List.perm_insertionSort _ _,
    List.pairwise_insertionSort _ _⟩

/-- The last selected row of an answer is one that no selected row outranks. -/
theorem Returned.le_of_getLast? (h : Returned rank rows result) {p : ρ → Bool} {w : ρ}
    (hlast : (result.filter p).getLast? = some w) :
    w ∈ rows ∧ p w = true ∧ ∀ x ∈ rows, p x = true → rank x ≤ rank w := by
  obtain ⟨front, hsplit⟩ := List.getLast?_eq_some_iff.mp hlast
  have hw : w ∈ result.filter p := by rw [hsplit]; simp
  obtain ⟨hmem, hp⟩ := List.mem_filter.mp hw
  refine ⟨h.mem_iff.mp hmem, hp, fun x hx hpx => ?_⟩
  have hsorted := h.2.filter p
  rw [hsplit, List.pairwise_append] at hsorted
  have hxs : x ∈ front ++ [w] := by
    rw [← hsplit]
    exact List.mem_filter.mpr ⟨h.mem_iff.mpr hx, hpx⟩
  rcases List.mem_append.mp hxs with hfront | hself
  · exact hsorted.2.2 x hfront w (List.mem_singleton.mpr rfl)
  · rw [List.mem_singleton.mp hself]

/-- A selected row that no selected row outranks is the last one in some answer. -/
theorem exists_returned_getLast? {p : ρ → Bool} {w : ρ} (hw : w ∈ rows) (hp : p w = true)
    (hmax : ∀ x ∈ rows, p x = true → rank x ≤ rank w) :
    ∃ result, Returned rank rows result ∧ (result.filter p).getLast? = some w := by
  obtain ⟨before, after, rfl⟩ := List.append_of_mem hw
  obtain ⟨sorted, hperm, hsorted⟩ := exists_returned rank (before ++ after)
  -- the other rows up to the rank of `w`, then `w`, then the rest
  let low := sorted.filter fun x => decide (rank x ≤ rank w)
  let high := sorted.filter fun x => !decide (rank x ≤ rank w)
  have hlow : ∀ x ∈ low, rank x ≤ rank w := fun x hx => by
    simpa using (List.mem_filter.mp hx).2
  have hhigh : ∀ x ∈ high, rank w < rank x := fun x hx => by
    simpa using (List.mem_filter.mp hx).2
  refine ⟨low ++ w :: high, ⟨?_, ?_⟩, ?_⟩
  · calc low ++ w :: high
      _ |>.Perm (w :: (low ++ high)) := List.perm_middle
      _ |>.Perm (w :: sorted) := (List.filter_append_perm _ _).cons w
      _ |>.Perm (w :: (before ++ after)) := hperm.cons w
      _ |>.Perm (before ++ w :: after) := List.perm_middle.symm
  · refine List.pairwise_append.mpr ⟨hsorted.filter _,
      List.pairwise_cons.mpr ⟨?_, hsorted.filter _⟩,
      ?_⟩
    · exact fun x hx => (hhigh x hx).le
    · intro a ha b hb
      rcases List.mem_cons.mp hb with rfl | hb
      · exact hlow a ha
      · exact (hlow a ha).trans (hhigh b hb).le
  · have hnone : high.filter p = [] := by
      rw [List.filter_eq_nil_iff]
      intro x hx hpx
      have hmem : x ∈ before ++ w :: after := by
        have := hperm.mem_iff.mp (List.mem_of_mem_filter hx)
        exact List.perm_middle.symm.mem_iff.mp (List.mem_cons_of_mem w this)
      exact absurd (hhigh x hx) (not_lt.mpr (hmax x hmem hpx))
    rw [List.filter_append, List.filter_cons_of_pos hp, hnone, List.getLast?_concat]

end

/-! ## 2. Range after range -/

/-- What a job reads from `s` on, when its runs end at the heights `ends`: the answers for the
ranges, one after the other. A run that would go back reads nothing. -/
inductive Reads [LinearOrder α] (rank : ρ → α) (height : ρ → ℕ) (rows : List ρ) :
    ℕ → List ℕ → List ρ → Prop
  | nil (s : ℕ) : Reads rank height rows s [] []
  | back {s e : ℕ} {ends : List ℕ} {rest : List ρ} :
      e < s → Reads rank height rows s ends rest → Reads rank height rows s (e :: ends) rest
  | range {s e : ℕ} {ends : List ℕ} {result rest : List ρ} :
      s ≤ e → Returned rank (between height s e rows) result →
      Reads rank height rows e ends rest → Reads rank height rows s (e :: ends) (result ++ rest)

section
variable [LinearOrder α] {rank : ρ → α} {height : ρ → ℕ} {rows : List ρ}

theorem le_foldl_max (ends : List ℕ) (s : ℕ) : s ≤ ends.foldl max s := by
  induction ends generalizing s with
  | nil => exact le_refl s
  | cons e ends ih => exact (le_max_left s e).trans (ih (max s e))

/-- Two answers, the second for higher rows. -/
theorem Returned.append {s m e : ℕ} (hrank : ∀ a b, height a < height b → rank a ≤ rank b)
    (hsm : s ≤ m) (hme : m ≤ e) {result rest : List ρ}
    (h : Returned rank (between height s m rows) result)
    (h' : Returned rank (between height m e rows) rest) :
    Returned rank (between height s e rows) (result ++ rest) := by
  refine ⟨(h.1.append h'.1).trans (between_append_perm hsm fun r _ => by omega), ?_⟩
  refine List.pairwise_append.mpr ⟨h.2, h'.2, fun a ha b hb => hrank a b ?_⟩
  have ha' := (mem_between.mp (h.mem_iff.mp ha)).2.2
  have hb' := (mem_between.mp (h'.mem_iff.mp hb)).2.1
  omega

/-- The rows of a range in an answer over a longer one. -/
theorem Returned.between {s e s' e' : ℕ} (hs : s ≤ s') (he : e' ≤ e) {result : List ρ}
    (h : Returned rank (between height s e rows) result) :
    Returned rank (Erascope.between height s' e' rows) (Erascope.between height s' e' result) := by
  refine ⟨?_, h.2.filter _⟩
  have hperm := h.1.filter fun r => decide (s' < height r ∧ height r ≤ e')
  exact hperm.trans (List.Perm.of_eq (between_between hs he))

/-- Reading range after range is reading all ranges at once. -/
theorem reads_iff (hlt : ∀ a b, height a < height b → rank a ≤ rank b)
    (hle : ∀ a b, rank a ≤ rank b → height a ≤ height b) {s : ℕ} {ends : List ℕ} {out : List ρ} :
    Reads rank height rows s ends out ↔
      Returned rank (between height s (ends.foldl max s) rows) out := by
  induction ends generalizing s out with
  | nil =>
    have hnil : between height s s rows = [] := between_eq_nil fun _ _ h => h
    rw [List.foldl_nil, hnil]
    constructor
    · rintro ⟨⟩
      exact ⟨List.Perm.refl _, List.Pairwise.nil⟩
    · rintro ⟨hperm, -⟩
      rw [List.perm_nil.mp hperm]
      exact .nil s
  | cons e ends ih =>
    rw [List.foldl_cons]
    constructor
    · rintro (_ | ⟨hback, hrest⟩ | ⟨hse, hresult, hrest⟩)
      · rw [max_eq_left hback.le]
        exact ih.mp hrest
      · rw [max_eq_right hse]
        exact hresult.append hlt hse (le_foldl_max ends e) (ih.mp hrest)
    · intro h
      by_cases hback : e < s
      · rw [max_eq_left hback.le] at h
        exact .back hback (ih.mpr h)
      · have hse := not_lt.mp hback
        rw [max_eq_right hse] at h
        have hmax := le_foldl_max ends e
        have hself : between height s (ends.foldl max e) out = out :=
          between_eq_self fun r hr => (mem_between.mp (h.mem_iff.mp hr)).2
        have hcut := between_append (h.2.imp fun {a b} => hle a b) hse hmax
        rw [← hself, ← hcut]
        exact .range hse (h.between (le_refl s) hmax) (ih.mpr (h.between hse (le_refl _)))

end

/-! ## 3. The last row of a key -/

section
variable [DecidableEq κ] {key : ρ → κ}

/-- Rows written one after the other: the last one of a key stays. -/
theorem Table.get?_upsertAll_eq (t : Table key) (rs : List ρ) (k : κ) :
    (t.upsertAll rs).get? k = ((rs.filter fun r => key r = k).getLast?).or (t.get? k) := by
  induction rs using List.reverseRecOn with
  | nil => rfl
  | append_singleton rs r ih =>
    rw [Table.upsertAll, List.foldl_append, List.foldl_cons, List.foldl_nil, Table.get?_upsert,
      List.filter_append]
    by_cases hk : key r = k
    · rw [if_pos hk, List.filter_cons_of_pos (by simpa using hk), List.filter_nil,
        List.getLast?_concat, Option.some_or]
    · rw [if_neg hk, List.filter_cons_of_neg (by simpa using hk), List.filter_nil, List.append_nil]
      exact ih

theorem Table.mem_rows_upsertAll {t : Table key} {rs : List ρ} {x : ρ}
    (h : x ∈ (t.upsertAll rs).rows) : x ∈ rs ∨ x ∈ t.rows := by
  induction rs generalizing t with
  | nil => exact Or.inr h
  | cons r rs ih =>
    rcases ih h with h | h
    · exact Or.inl (List.mem_cons_of_mem r h)
    · rcases Table.mem_rows_upsert.mp h with rfl | ⟨h, -⟩
      · exact Or.inl List.mem_cons_self
      · exact Or.inr h

/-- Writing a row leaves a selection alone that has neither the row nor the one it replaces. -/
theorem Table.filter_upsertRow {p : ρ → Bool} {r : ρ} {l : List ρ} (hr : p r = false)
    (hsame : ∀ x ∈ l, key x = key r → p x = false) :
    (Table.upsertRow key r l).filter p = l.filter p := by
  induction l with
  | nil => rw [Table.upsertRow, List.filter_cons_of_neg (by simp [hr])]
  | cons x l ih =>
    rw [Table.upsertRow]
    split
    case isTrue hkey =>
      have hx : ¬ p x = true := by simp [hsame x List.mem_cons_self hkey]
      rw [List.filter_cons_of_neg (by simp [hr]), List.filter_cons_of_neg hx]
    case isFalse =>
      have ih := ih fun y hy => hsame y (List.mem_cons_of_mem x hy)
      rw [List.filter_cons, List.filter_cons, ih]

end

/-! ## 4. Groups -/

section
variable [DecidableEq κ]

/-- `_.groupBy`: the rows of each key, in the order in which the keys come first. -/
def groupBy (key : ρ → κ) (rows : List ρ) : List (List ρ) :=
  (rows.map key).eraseDups.map fun k => rows.filter fun r => key r = k

theorem mem_groupBy {key : ρ → κ} {rows group : List ρ} :
    group ∈ groupBy key rows ↔ ∃ r ∈ rows, group = rows.filter fun x => key x = key r := by
  simp only [groupBy, List.mem_map, List.mem_eraseDups]
  constructor
  · rintro ⟨k, ⟨r, hr, rfl⟩, rfl⟩
    exact ⟨r, hr, rfl⟩
  · rintro ⟨r, hr, rfl⟩
    exact ⟨key r, ⟨r, hr, rfl⟩, rfl⟩

end

end Erascope
