import Mathlib.Algebra.BigOperators.Group.List.Basic
import Mathlib.Tactic

/-!
# Rows with a height

Lists of rows as queries return them. `between height s e rows` are the rows with
`s < height ≤ e`, the selection every job makes for its range. In a list ordered by height,
consecutive ranges select consecutive pieces (`between_append`). `PresentIff p rows A` says
that the rows `A` are stored exactly once if `p` holds and not at all otherwise. A stable sort
commutes with every selection (`insertionSort_filter`).
-/

namespace Erascope

variable {ρ β κ : Type}

/-- A nullable text as a JavaScript condition reads it: null and the empty text are false. -/
def truthy (s : Option String) : Option String := s.filter fun t => decide (t ≠ "")

/-- The rows with `s < height ≤ e`, in order. -/
def between (height : ρ → ℕ) (s e : ℕ) (rows : List ρ) : List ρ :=
  rows.filter fun r => decide (s < height r ∧ height r ≤ e)

section
variable {height : ρ → ℕ} {s m e : ℕ} {rows : List ρ}

theorem mem_between {r : ρ} : r ∈ between height s e rows ↔ r ∈ rows ∧ s < height r ∧ height r ≤ e := by
  simp [between]

@[simp] theorem between_nil : between height s e ([] : List ρ) = [] := rfl

theorem between_append_rows (rows' : List ρ) :
    between height s e (rows ++ rows') = between height s e rows ++ between height s e rows' :=
  List.filter_append ..

omit height in
/-- In rows sorted by `f`, those below a bound come first. -/
theorem filter_lt_append {β : Type} [LinearOrder β] {f : ρ → β}
    (hs : rows.Pairwise fun a b => f a ≤ f b) (b : β) :
    (rows.filter fun r => f r < b) ++ (rows.filter fun r => b ≤ f r) = rows := by
  induction rows with
  | nil => rfl
  | cons r rs ih =>
    obtain ⟨hr, hrs⟩ := List.pairwise_cons.mp hs
    rcases lt_or_ge (f r) b with hb | hb
    · rw [List.filter_cons_of_pos (by simpa using hb), List.filter_cons_of_neg (by simpa using hb),
        List.cons_append, ih hrs]
    · have hnil : (r :: rs).filter (fun r => f r < b) = [] := by
        rw [List.filter_eq_nil_iff]
        intro x hx
        rcases List.mem_cons.mp hx with rfl | hx
        · simpa using hb
        · simpa using hb.trans (hr x hx)
      have hall : (r :: rs).filter (fun r => b ≤ f r) = r :: rs := by
        rw [List.filter_eq_self]
        intro x hx
        rcases List.mem_cons.mp hx with rfl | hx
        · simpa using hb
        · simpa using hb.trans (hr x hx)
      rw [hnil, hall, List.nil_append]

omit height in
theorem prefix_filter_lt {f : ρ → ℕ} (hs : rows.Pairwise fun a b => f a ≤ f b) (b : ℕ) :
    rows.filter (fun r => f r < b) <+: rows :=
  ⟨_, filter_lt_append hs b⟩

/-- A range and another selection commute. -/
theorem filter_between (p : ρ → Bool) :
    (between height s e rows).filter p = between height s e (rows.filter p) := by
  simp only [between, List.filter_filter, Bool.and_comm]

theorem between_eq_nil (h : ∀ r ∈ rows, s < height r → e < height r) :
    between height s e rows = [] := by
  rw [between, List.filter_eq_nil_iff]
  intro r hr
  simp only [decide_eq_true_eq, not_and, not_le]
  exact h r hr

theorem between_eq_self (h : ∀ r ∈ rows, s < height r ∧ height r ≤ e) :
    between height s e rows = rows := by
  rw [between, List.filter_eq_self]
  intro r hr
  simpa using h r hr

/-- A sum over a range is a sum over all rows. -/
theorem sum_between {M : Type} [AddCommMonoid M] (f : ρ → M) :
    ((between height s e rows).map f).sum =
      (rows.map fun r => if s < height r ∧ height r ≤ e then f r else 0).sum := by
  rw [List.sum_map_ite]
  simp [between]

/-- What the rows of a range give is the range of what all rows give. -/
theorem between_flatMap {height' : β → ℕ} {f : ρ → List β}
    (h : ∀ r, ∀ b ∈ f r, height' b = height r) :
    between height' s e (rows.flatMap f) = (between height s e rows).flatMap f := by
  induction rows with
  | nil => rfl
  | cons r rows ih =>
    rw [List.flatMap_cons, between_append_rows, ih]
    by_cases hin : s < height r ∧ height r ≤ e
    · have hself : between height' s e (f r) = f r := between_eq_self fun b hb => by rwa [h r b hb]
      rw [hself, between, between, List.filter_cons_of_pos (by simpa using hin), List.flatMap_cons]
    · have hnil : between height' s e (f r) = [] := by
        rw [between, List.filter_eq_nil_iff]
        intro b hb
        rw [h r b hb]
        simpa using hin
      rw [hnil, between, between, List.filter_cons_of_neg (by simpa using hin), List.nil_append]

theorem between_sublist : (between height s e rows).Sublist rows := List.filter_sublist

/-- Cutting a range: the rows of `(s, e]` are those of `(s, m]` followed by those of `(m, e]`. -/
theorem between_append (hsort : rows.Pairwise fun a b => height a ≤ height b)
    (hsm : s ≤ m) (hme : m ≤ e) :
    between height s m rows ++ between height m e rows = between height s e rows := by
  induction rows with
  | nil => rfl
  | cons r rows ih =>
    rw [List.pairwise_cons] at hsort
    have ih := ih hsort.2
    simp only [between] at ih ⊢
    by_cases hm : height r ≤ m
    · have hnot : ¬ (m < height r ∧ height r ≤ e) := by omega
      have hiff : (s < height r ∧ height r ≤ m) ↔ (s < height r ∧ height r ≤ e) := by omega
      simp only [List.filter_cons, decide_eq_true_eq, hiff, hnot, if_false, ← ih]
      split <;> simp
    · -- all later rows are above `m` as well, so the first piece is empty
      have hnil : rows.filter (fun r => decide (s < height r ∧ height r ≤ m)) = [] :=
        between_eq_nil fun x hx _ => (not_le.mp hm).trans_le (hsort.1 x hx)
      have hnot : ¬ (s < height r ∧ height r ≤ m) := by omega
      have hiff : (m < height r ∧ height r ≤ e) ↔ (s < height r ∧ height r ≤ e) := by omega
      simp only [List.filter_cons, decide_eq_true_eq, hnot, if_false, hnil, hiff, List.nil_append]
      rw [hnil, List.nil_append] at ih
      simp only [ih]

/-- Cutting what lies above a height. -/
theorem between_append_above (hsort : rows.Pairwise fun a b => height a ≤ height b) (hsm : s ≤ m) :
    between height s m rows ++ rows.filter (fun r => m < height r) =
      rows.filter fun r => s < height r := by
  induction rows with
  | nil => rfl
  | cons r rows ih =>
    rw [List.pairwise_cons] at hsort
    have ih := ih hsort.2
    simp only [between] at ih ⊢
    by_cases hm : height r ≤ m
    · have hnot : ¬ m < height r := by omega
      simp only [List.filter_cons, decide_eq_true_eq, hnot, hm, and_true, if_false, ← ih]
      split <;> simp
    · -- all later rows are above `m` as well, so the first piece is empty
      have hnil : rows.filter (fun r => decide (s < height r ∧ height r ≤ m)) = [] :=
        between_eq_nil fun x hx _ => (not_le.mp hm).trans_le (hsort.1 x hx)
      have hlt : m < height r := by omega
      have hls : s < height r := by omega
      simp only [List.filter_cons, decide_eq_true_eq, hm, and_false, if_false, hlt, hls, if_true,
        hnil, List.nil_append]
      rw [hnil, List.nil_append] at ih
      rw [ih]

/-- Cutting a range of rows in any order. The second range may also go back, as long as no row
is passed. -/
theorem between_append_perm (hsm : s ≤ m)
    (hgap : ∀ r ∈ rows, ¬ (e < height r ∧ height r ≤ m)) :
    (between height s m rows ++ between height m e rows).Perm (between height s e rows) := by
  have hsplit := List.filter_append_perm (fun r => decide (height r ≤ m)) (between height s e rows)
  have hlow : (between height s e rows).filter (fun r => decide (height r ≤ m)) =
      between height s m rows := by
    rw [between, List.filter_filter]
    refine List.filter_congr fun r hr => ?_
    have := hgap r hr
    simp only [← Bool.decide_and, decide_eq_decide]
    omega
  have hhigh : (between height s e rows).filter (fun r => !decide (height r ≤ m)) =
      between height m e rows := by
    rw [between, List.filter_filter]
    refine List.filter_congr fun r _ => ?_
    simp only [← decide_not, ← Bool.decide_and, decide_eq_decide]
    omega
  rw [hlow, hhigh] at hsplit
  exact hsplit

/-- A range within a range. -/
theorem between_between {s' e' : ℕ} (hs : s' ≤ s) (he : e ≤ e') :
    between height s e (between height s' e' rows) = between height s e rows := by
  unfold between
  rw [List.filter_filter]
  refine List.filter_congr fun r _ => ?_
  simp only [← Bool.decide_and, decide_eq_decide]
  omega

end

/-- Selecting before and after a conversion. -/
theorem filter_filterMap_comm {p : ρ → Bool} {q : β → Bool} {f : ρ → Option β}
    (hpq : ∀ r b, f r = some b → q b = p r) (rows : List ρ) :
    (rows.filter p).filterMap f = (rows.filterMap f).filter q := by
  induction rows with
  | nil => rfl
  | cons r rows ih =>
    cases hf : f r with
    | none => by_cases hp : p r <;> simp [hf, hp, ih]
    | some b =>
      have hq := hpq r b hf
      by_cases hp : p r
      · rw [hp] at hq
        simp [hf, hp, hq, ih]
      · rw [Bool.eq_false_iff.mpr hp] at hq
        simp [hf, hp, hq, ih]

/-- Selecting a range before and after a conversion that keeps the height. -/
theorem between_filterMap {height : ρ → ℕ} {height' : β → ℕ} {s e : ℕ} {f : ρ → Option β}
    (hf : ∀ r b, f r = some b → height' b = height r) (rows : List ρ) :
    (between height s e rows).filterMap f = between height' s e (rows.filterMap f) :=
  filter_filterMap_comm (fun r b hb => by rw [hf r b hb]) rows

/-- Every row of a list, with the rows before it. -/
theorem forall_split_iff {Q : List ρ → ρ → Prop} {rows : List ρ} :
    (∀ before r after, rows = before ++ r :: after → Q before r) ↔
      ∀ (i : ℕ) (h : i < rows.length), Q (rows.take i) rows[i] := by
  constructor
  · intro hsplit i h
    refine hsplit _ _ (rows.drop (i + 1)) ?_
    rw [← List.drop_eq_getElem_cons h, List.take_append_drop]
  · rintro hindex before r after rfl
    have hi := hindex before.length (by simp)
    rw [List.getElem_append_right (le_refl _)] at hi
    simpa using hi

/-! ## Stable sorting -/

section
variable {r : ρ → ρ → Prop} [DecidableRel r] [IsTrans ρ r]

theorem filter_orderedInsert (p : ρ → Bool) (a : ρ) {l : List ρ} (hl : l.Pairwise r) :
    (l.orderedInsert r a).filter p =
      if p a then (l.filter p).orderedInsert r a else l.filter p := by
  induction l with
  | nil => by_cases ha : p a <;> simp [ha]
  | cons b l ih =>
    rw [List.pairwise_cons] at hl
    by_cases hab : r a b
    · rw [List.orderedInsert_cons_of_le r l hab]
      by_cases ha : p a
      · -- the new row precedes everything that is left
        have hall : ∀ c ∈ (b :: l).filter p, r a c := by
          intro c hc
          rcases List.mem_cons.mp (List.mem_of_mem_filter hc) with rfl | hc
          · exact hab
          · exact Trans.trans hab (hl.1 c hc)
        rw [List.filter_cons_of_pos ha, if_pos ha]
        cases hfilter : (b :: l).filter p with
        | nil => rfl
        | cons c cs =>
          rw [List.orderedInsert_cons_of_le r cs (hall c (hfilter ▸ List.mem_cons_self))]
      · rw [List.filter_cons_of_neg ha, if_neg ha]
    · rw [List.orderedInsert_of_not_le r l hab]
      by_cases hb : p b
      · rw [List.filter_cons_of_pos hb, List.filter_cons_of_pos hb, ih hl.2]
        split
        · rw [List.orderedInsert_of_not_le r _ hab]
        · rfl
      · rw [List.filter_cons_of_neg hb, List.filter_cons_of_neg hb, ih hl.2]

/-- A stable sort commutes with a selection. -/
theorem insertionSort_filter [Std.Total r] (p : ρ → Bool) (l : List ρ) :
    (l.filter p).insertionSort r = (l.insertionSort r).filter p := by
  induction l with
  | nil => rfl
  | cons a l ih =>
    rw [List.insertionSort_cons, filter_orderedInsert p a (List.pairwise_insertionSort r l)]
    by_cases ha : p a
    · rw [List.filter_cons_of_pos ha, List.insertionSort_cons, ih, if_pos ha]
    · rw [List.filter_cons_of_neg ha, ih, if_neg ha]

end

/-! ## Rows that are stored once -/

/-- The stored rows are those of `A`, each once, if `p` holds; otherwise there are none. -/
def PresentIff (p : Prop) (stored A : List β) : Prop :=
  (p → stored.Perm A) ∧ (¬ p → stored = [])

instance [DecidableEq β] (p : Prop) [Decidable p] (stored A : List β) :
    Decidable (PresentIff p stored A) :=
  inferInstanceAs (Decidable ((p → stored.Perm A) ∧ (¬ p → stored = [])))

/-- Storing the rows of `(s, e]` over a table that holds those up to `H` leaves each up to `e`
once exactly when no row lies between `s` and `H`. -/
theorem presentIff_append_iff {h H s e : ℕ} {stored A : List β} (hse : s < e)
    (hpre : PresentIff (h ≤ H) stored A) :
    PresentIff (h ≤ e) (stored ++ if s < h ∧ h ≤ e then A else []) A ↔
      (min s H < h ∧ h ≤ max s H → A = []) := by
  constructor
  · rintro ⟨hin, hout⟩ hbetween
    by_cases hH : h ≤ H
    · -- the rows are there already: a second copy, or they are above the new height
      have hs : s < h := by omega
      have hlen := (hpre.1 hH).length_eq
      by_cases he : h ≤ e
      · have hdup := (hin he).length_eq
        rw [if_pos ⟨hs, he⟩, List.length_append] at hdup
        exact List.length_eq_zero_iff.mp (by omega)
      · have hnil := (List.append_eq_nil_iff.mp (hout he)).1
        rw [hnil] at hlen
        exact List.length_eq_zero_iff.mp hlen.symm
    · -- the rows are skipped
      have hskip := hin (by omega)
      rw [hpre.2 hH, if_neg (by omega)] at hskip
      exact hskip.symm.eq_nil
  · intro hA
    by_cases hbetween : min s H < h ∧ h ≤ max s H
    · have hstored : stored = [] := by
        by_cases hH : h ≤ H
        · exact (hA hbetween ▸ hpre.1 hH).eq_nil
        · exact hpre.2 hH
      simp [PresentIff, hstored, hA hbetween]
    · by_cases hH : h ≤ H
      · rw [if_neg (by omega), List.append_nil]
        exact ⟨fun _ => hpre.1 hH, fun he => absurd he (by omega)⟩
      · rw [hpre.2 hH, List.nil_append]
        refine ⟨fun he => ?_, fun he => if_neg (by omega)⟩
        rw [if_pos (by omega)]

/-! ## Rows that belong to a parent -/

/-- Among the children of rows with pairwise different keys, those with the key of `a` are the
children of `a`. -/
theorem filter_flatMap_of_mem [DecidableEq κ] {parent : ρ → κ} {child : β → κ} {f : ρ → List β}
    {rows : List ρ} (hchild : ∀ a ∈ rows, ∀ b ∈ f a, child b = parent a)
    (hnd : (rows.map parent).Nodup) {a : ρ} (ha : a ∈ rows) :
    (rows.flatMap f).filter (fun b => child b = parent a) = f a := by
  induction rows with
  | nil => cases ha
  | cons x xs ih =>
    rw [List.map_cons, List.nodup_cons] at hnd
    rw [List.flatMap_cons, List.filter_append]
    rcases List.mem_cons.mp ha with rfl | hxs
    · have hself : (f a).filter (fun b => child b = parent a) = f a := by
        rw [List.filter_eq_self]
        intro b hb
        simpa using hchild a List.mem_cons_self b hb
      have hrest : (xs.flatMap f).filter (fun b => child b = parent a) = [] := by
        rw [List.filter_eq_nil_iff]
        intro b hb
        obtain ⟨y, hy, hby⟩ := List.mem_flatMap.mp hb
        have hc := hchild y (List.mem_cons_of_mem _ hy) b hby
        simp only [decide_eq_true_eq, hc]
        exact fun h => hnd.1 (h ▸ List.mem_map_of_mem hy)
      rw [hself, hrest, List.append_nil]
    · have hx : (f x).filter (fun b => child b = parent a) = [] := by
        rw [List.filter_eq_nil_iff]
        intro b hb
        have hc := hchild x List.mem_cons_self b hb
        simp only [decide_eq_true_eq, hc]
        exact fun h => hnd.1 (h ▸ List.mem_map_of_mem hxs)
      rw [hx, List.nil_append]
      exact ih (fun y hy => hchild y (List.mem_cons_of_mem _ hy)) hnd.2 hxs

/-- Among rows with different keys, the key picks out the row. -/
theorem filter_key_eq [DecidableEq κ] {key : ρ → κ} {rows : List ρ} (hnd : (rows.map key).Nodup)
    {a : ρ} (ha : a ∈ rows) : rows.filter (fun b => key b = key a) = [a] := by
  have hself : ∀ b ∈ rows, ∀ c ∈ [b], key c = key b := fun b _ c hc => by
    rw [List.mem_singleton.mp hc]
  simpa using filter_flatMap_of_mem hself hnd ha

theorem filter_flatMap_of_not_mem [DecidableEq κ] {parent : ρ → κ} {child : β → κ}
    {f : ρ → List β} {rows : List ρ} (hchild : ∀ a ∈ rows, ∀ b ∈ f a, child b = parent a)
    {k : κ} (hk : k ∉ rows.map parent) :
    (rows.flatMap f).filter (fun b => child b = k) = [] := by
  rw [List.filter_eq_nil_iff]
  intro b hb
  obtain ⟨a, ha, hba⟩ := List.mem_flatMap.mp hb
  simp only [decide_eq_true_eq, hchild a ha b hba]
  exact fun h => hk (h ▸ List.mem_map_of_mem ha)

/-- Converting a selection, row by row. -/
theorem filterMap_filter_eq_flatMap (p : ρ → Bool) (f : ρ → Option β) (rows : List ρ) :
    (rows.filter p).filterMap f = rows.flatMap fun r => if p r then (f r).toList else [] := by
  induction rows with
  | nil => rfl
  | cons r rows ih =>
    rw [List.flatMap_cons, ← ih]
    by_cases hp : p r
    · rw [List.filter_cons_of_pos hp, if_pos hp]
      cases hf : f r <;> simp [hf]
    · rw [List.filter_cons_of_neg hp, if_neg hp]
      rfl

/-- The children of a selection, row by row. -/
theorem flatMap_filter (p : ρ → Bool) (f : ρ → List β) (rows : List ρ) :
    (rows.filter p).flatMap f = rows.flatMap fun r => if p r then f r else [] := by
  induction rows with
  | nil => rfl
  | cons r rows ih =>
    rw [List.flatMap_cons, ← ih]
    by_cases hp : p r
    · rw [List.filter_cons_of_pos hp, if_pos hp, List.flatMap_cons]
    · rw [List.filter_cons_of_neg hp, if_neg hp]
      rfl

/-- Children of rows with pairwise different keys agree, up to order, exactly when the children
of each row do. -/
theorem perm_flatMap_iff [DecidableEq κ] {parent : ρ → κ} (child : β → κ) {f g : ρ → List β}
    {rows : List ρ} (hnd : (rows.map parent).Nodup)
    (hf : ∀ a ∈ rows, ∀ b ∈ f a, child b = parent a)
    (hg : ∀ a ∈ rows, ∀ b ∈ g a, child b = parent a) :
    (rows.flatMap f).Perm (rows.flatMap g) ↔ ∀ a ∈ rows, (f a).Perm (g a) := by
  constructor
  · intro h a ha
    have hfilter := h.filter fun b => child b = parent a
    rwa [filter_flatMap_of_mem hf hnd ha, filter_flatMap_of_mem hg hnd ha] at hfilter
  · exact List.Perm.flatMap_left rows

/-- Two kinds of rows agree, up to order, exactly when each kind does. -/
theorem perm_append_iff {p : β → Bool} {A A' B B' : List β} (hA : ∀ b ∈ A, p b = true)
    (hA' : ∀ b ∈ A', p b = true) (hB : ∀ b ∈ B, p b = false) (hB' : ∀ b ∈ B', p b = false) :
    (A ++ B).Perm (A' ++ B') ↔ A.Perm A' ∧ B.Perm B' := by
  have hself : ∀ {C : List β}, (∀ b ∈ C, p b = true) → C.filter p = C :=
    fun h => List.filter_eq_self.mpr h
  have hnil : ∀ {C : List β}, (∀ b ∈ C, p b = false) → C.filter p = [] := fun h =>
    List.filter_eq_nil_iff.mpr fun b hb => by simp [h b hb]
  constructor
  · intro h
    have hfirst := h.filter p
    rw [List.filter_append, List.filter_append, hself hA, hself hA', hnil hB, hnil hB',
      List.append_nil, List.append_nil] at hfirst
    exact ⟨hfirst, (List.perm_append_left_iff A).mp (h.trans (hfirst.symm.append_right B'))⟩
  · rintro ⟨h, h'⟩
    exact h.append h'

end Erascope
