import Mathlib.Tactic

/-!
# Half-open ranges

Ranges `[low, high)` of natural numbers, as the partitions of a table have them. `Consecutive a rs b`
says that the ranges follow one another from `a` up to `b`, and `Tiles a rs b` that they do in some
order. What is tiled is disjoint (`Tiles.disjoint`), each number of it lies in one range
(`Tiles.filter_contains`), and the end is determined by the ranges (`Tiles.high_unique`).
-/

namespace Erascope

/-- The numbers from `low` up to, and without, `high`. -/
structure Range where
  low : ℕ
  high : ℕ
deriving DecidableEq, Repr

namespace Range

def Contains (r : Range) (x : ℕ) : Prop := r.low ≤ x ∧ x < r.high

instance (r : Range) (x : ℕ) : Decidable (r.Contains x) := inferInstanceAs (Decidable (_ ∧ _))

/-- The two ranges have a number in common, if they are not empty. -/
def Overlaps (r r' : Range) : Prop := r.low < r'.high ∧ r'.low < r.high

instance (r r' : Range) : Decidable (r.Overlaps r') := inferInstanceAs (Decidable (_ ∧ _))

/-- A name that shows both ends. -/
def name (label : String) (r : Range) : String := s!"{label}_{r.low}_{r.high}"

theorem toDigits_injective {m n : ℕ} (h : Nat.toDigits 10 m = Nat.toDigits 10 n) : m = n := by
  rw [← Nat.ofDigitChars_ten_toDigits (n := m), h, Nat.ofDigitChars_ten_toDigits]

/-- A range can be read off its name: no underscore is a digit. -/
theorem name_injective {label : String} {r r' : Range} (h : r.name label = r'.name label) :
    r = r' := by
  have hlist := congrArg String.toList h
  simp only [name, toString, String.toList_append, Nat.toList_repr, List.append_assoc,
    List.append_cancel_left_eq] at hlist
  obtain ⟨hlow, -, hhigh⟩ := (List.append_cons_inj_of_notMem Nat.underscore_not_in_toDigits
    Nat.underscore_not_in_toDigits).mp hlist
  obtain ⟨low, high⟩ := r
  obtain ⟨low', high'⟩ := r'
  obtain rfl : low = low' := toDigits_injective hlow
  obtain rfl : high = high' := toDigits_injective hhigh
  rfl

end Range

/-! ## 1. Consecutive ranges -/

/-- The ranges follow one another from `a` up to `b`, none of them empty. -/
def Consecutive : ℕ → List Range → ℕ → Prop
  | a, [], b => a = b
  | a, r :: rs, b => r.low = a ∧ r.low < r.high ∧ Consecutive r.high rs b

theorem consecutive_concat {a b : ℕ} {rs : List Range} {r : Range} :
    Consecutive a (rs ++ [r]) b ↔ Consecutive a rs r.low ∧ r.low < r.high ∧ r.high = b := by
  induction rs generalizing a with
  | nil =>
    constructor
    · rintro ⟨hlow, hne, hhigh⟩
      exact ⟨hlow.symm, hne, hhigh⟩
    · rintro ⟨hlow, hne, hhigh⟩
      exact ⟨hlow.symm, hne, hhigh⟩
  | cons r' rs ih =>
    show r'.low = a ∧ r'.low < r'.high ∧ Consecutive r'.high (rs ++ [r]) b ↔
      (r'.low = a ∧ r'.low < r'.high ∧ Consecutive r'.high rs r.low) ∧ r.low < r.high ∧ r.high = b
    rw [ih]
    tauto

/-- The end is the start and the widths of the ranges. -/
theorem Consecutive.high_eq {a b : ℕ} {rs : List Range} (h : Consecutive a rs b) :
    b = a + (rs.map fun r => r.high - r.low).sum := by
  induction rs generalizing a with
  | nil => exact h.symm
  | cons r rs ih =>
    obtain ⟨hlow, hne, hrest⟩ := h
    rw [ih hrest, List.map_cons, List.sum_cons]
    omega

theorem Consecutive.le {a b : ℕ} {rs : List Range} (h : Consecutive a rs b) : a ≤ b := by
  have := h.high_eq
  omega

theorem Consecutive.bounds {a b : ℕ} {rs : List Range} (h : Consecutive a rs b) {r : Range}
    (hr : r ∈ rs) : a ≤ r.low ∧ r.low < r.high ∧ r.high ≤ b := by
  induction rs generalizing a with
  | nil => cases hr
  | cons r' rs ih =>
    obtain ⟨hlow, hne, hrest⟩ := h
    rcases List.mem_cons.mp hr with rfl | hr
    · exact ⟨hlow.ge, hne, hrest.le⟩
    · obtain ⟨hafter, hne', hend⟩ := ih hrest hr
      exact ⟨by omega, hne', hend⟩

/-- Of two ranges the first one ends before the second begins. -/
theorem Consecutive.pairwise {a b : ℕ} {rs : List Range} (h : Consecutive a rs b) :
    rs.Pairwise fun r r' => r.high ≤ r'.low := by
  induction rs generalizing a with
  | nil => exact List.Pairwise.nil
  | cons r rs ih =>
    obtain ⟨-, -, hrest⟩ := h
    exact List.pairwise_cons.mpr ⟨fun r' hr' => (hrest.bounds hr').1, ih hrest⟩

/-- One range contains each number from the start to the end. -/
theorem Consecutive.filter_contains {a b x : ℕ} {rs : List Range} (h : Consecutive a rs b)
    (ha : a ≤ x) (hb : x < b) : ∃ r, (rs.filter fun r => r.Contains x) = [r] := by
  induction rs generalizing a with
  | nil =>
    obtain rfl : a = b := h
    omega
  | cons r rs ih =>
    obtain ⟨hlow, hne, hrest⟩ := h
    rcases Nat.lt_or_ge x r.high with hx | hx
    · have hnone : (rs.filter fun r => r.Contains x) = [] := by
        rw [List.filter_eq_nil_iff]
        intro r' hr' hcontains
        have hafter := (hrest.bounds hr').1
        have hin : r'.Contains x := by simpa using hcontains
        exact absurd (hafter.trans hin.1) (not_le.mpr hx)
      have hin : r.Contains x := ⟨hlow.le.trans ha, hx⟩
      refine ⟨r, ?_⟩
      rw [List.filter_cons_of_pos, hnone]
      rwa [decide_eq_true_eq]
    · obtain ⟨r', hr'⟩ := ih hrest hx
      refine ⟨r', ?_⟩
      rw [List.filter_cons_of_neg, hr']
      rw [decide_eq_true_eq]
      exact fun hin => absurd hin.2 (not_lt.mpr hx)

/-! ## 2. Tiles -/

/-- In some order, the ranges follow one another from `a` up to `b`. -/
def Tiles (a : ℕ) (rs : List Range) (b : ℕ) : Prop :=
  ∃ sorted : List Range, sorted.Perm rs ∧ Consecutive a sorted b

theorem Tiles.concat {a : ℕ} {rs : List Range} {r : Range} (h : Tiles a rs r.low)
    (hne : r.low < r.high) : Tiles a (rs ++ [r]) r.high := by
  obtain ⟨sorted, hperm, hsorted⟩ := h
  exact ⟨sorted ++ [r], hperm.append_right [r], consecutive_concat.mpr ⟨hsorted, hne, rfl⟩⟩

theorem Tiles.high_unique {a b b' : ℕ} {rs : List Range} (h : Tiles a rs b) (h' : Tiles a rs b') :
    b = b' := by
  obtain ⟨sorted, hperm, hsorted⟩ := h
  obtain ⟨sorted', hperm', hsorted'⟩ := h'
  rw [hsorted.high_eq, hsorted'.high_eq, (hperm.map _).sum_eq, (hperm'.map _).sum_eq]

theorem Tiles.disjoint {a b : ℕ} {rs : List Range} (h : Tiles a rs b) :
    rs.Pairwise fun r r' => ¬ r.Overlaps r' := by
  obtain ⟨sorted, hperm, hsorted⟩ := h
  have hpairwise : sorted.Pairwise fun r r' => ¬ r.Overlaps r' :=
    hsorted.pairwise.imp fun hle hoverlap => absurd hoverlap.2 (not_lt.mpr hle)
  exact hpairwise.perm hperm fun hnot hoverlap => hnot ⟨hoverlap.2, hoverlap.1⟩

/-- Exactly one range contains each number of what is tiled. -/
theorem Tiles.filter_contains {a b x : ℕ} {rs : List Range} (h : Tiles a rs b) (ha : a ≤ x)
    (hb : x < b) : ∃ r, (rs.filter fun r => r.Contains x) = [r] := by
  obtain ⟨sorted, hperm, hsorted⟩ := h
  obtain ⟨r, hr⟩ := hsorted.filter_contains ha hb
  have hfilter := hperm.filter fun r => decide (r.Contains x)
  rw [hr] at hfilter
  exact ⟨r, List.singleton_perm.mp hfilter |>.symm⟩

end Erascope
