import Mathlib.Tactic

/-!
# Natural numbers as doubles

What is left of a natural number after it was read as a double and printed again. `toDouble` rounds
to 53 significant bits, ties to even. `printed` is the value of the shortest decimal that reads back
as the same double; among those of one length the closest one is printed, and the even one on a tie.
`reprinted` is both, and exact below `2 ^ 53` (`reprinted_of_lt`).
-/

namespace Erascope.Number

/-- The nearest double, for numbers below the largest one. -/
def toDouble (n : ℕ) : ℕ :=
  let e := n.log2 - 52
  let q := n / 2 ^ e
  let r := n % 2 ^ e
  if 2 ^ e < 2 * r ∨ 2 ^ e = 2 * r ∧ q % 2 = 1 then (q + 1) * 2 ^ e else q * 2 ^ e

/-- The multiple of `m` next to `d` that reads as `d`, if there is one. -/
def closest (m d : ℕ) : Option ℕ :=
  let low := d / m * m
  let high := low + m
  if toDouble low = d then
    if toDouble high = d ∧ (high - d < d - low ∨ high - d = d - low ∧ d / m % 2 = 1) then some high
    else some low
  else if toDouble high = d then some high
  else none

/-- The shortest decimal among those that end with at most `e` zeros. -/
def printedFrom (d : ℕ) : ℕ → ℕ
  | 0 => d
  | e + 1 => (closest (10 ^ (e + 1)) d).getD (printedFrom d e)

/-- The value of the text of a double. -/
def printed (d : ℕ) : ℕ := printedFrom d (Nat.log 10 d + 1)

/-- A number that was read as a double and printed again. -/
def reprinted (n : ℕ) : ℕ := printed (toDouble n)

theorem toDouble_zero : toDouble 0 = 0 := by decide

theorem toDouble_of_lt {n : ℕ} (h : n < 2 ^ 53) : toDouble n = n := by
  have hlog : n.log2 - 52 = 0 := by
    by_cases hn : n = 0
    · subst hn
      rfl
    · have := (Nat.log2_lt hn).mpr h
      omega
  simp [toDouble, hlog, Nat.mod_one]

theorem le_toDouble_pow {k n : ℕ} (hk : 53 ≤ k) (h : 2 ^ k ≤ n) : 2 ^ k ≤ toDouble n := by
  have hn : n ≠ 0 := by
    rintro rfl
    exact absurd (Nat.two_pow_pos k) (not_lt.mpr h)
  have hlog : k ≤ n.log2 := (Nat.le_log2 hn).mpr h
  obtain ⟨e, he⟩ : ∃ e, n.log2 = 52 + (e + 1) := ⟨n.log2 - 53, by omega⟩
  have hq : 2 ^ 52 ≤ n / 2 ^ (e + 1) := by
    rw [Nat.le_div_iff_mul_le (by positivity), ← pow_add, ← he]
    exact Nat.log2_self_le hn
  have hmul : 2 ^ k ≤ n / 2 ^ (e + 1) * 2 ^ (e + 1) := by
    calc 2 ^ k ≤ 2 ^ 52 * 2 ^ (e + 1) := by
          rw [← pow_add]
          exact Nat.pow_le_pow_right (by decide) (by omega)
      _ ≤ n / 2 ^ (e + 1) * 2 ^ (e + 1) := Nat.mul_le_mul_right _ hq
  have hsub : n.log2 - 52 = e + 1 := by omega
  rw [toDouble, hsub]
  split
  · exact hmul.trans (Nat.mul_le_mul_right _ (Nat.le_succ _))
  · exact hmul

theorem le_toDouble {n : ℕ} (h : 2 ^ 53 ≤ n) : 2 ^ 53 ≤ toDouble n :=
  le_toDouble_pow (le_refl 53) h

/-- From `2 ^ 53` to `2 ^ 54` the even numbers are doubles. -/
theorem toDouble_of_even {n : ℕ} (h : n < 2 ^ 54) (heven : 2 ∣ n) : toDouble n = n := by
  rcases Nat.lt_or_ge n (2 ^ 53) with hlt | hge
  · exact toDouble_of_lt hlt
  · have hn : n ≠ 0 := by
      rintro rfl
      exact absurd hge (by decide)
    have hlog : n.log2 = 53 :=
      le_antisymm (Nat.le_of_lt_succ ((Nat.log2_lt hn).mpr h)) ((Nat.le_log2 hn).mpr hge)
    obtain ⟨m, rfl⟩ := heven
    rw [toDouble, hlog]
    simp [Nat.mul_comm]

theorem toDouble_pos {n : ℕ} (h : 0 < n) : 0 < toDouble n := by
  by_cases hlt : n < 2 ^ 53
  · rwa [toDouble_of_lt hlt]
  · exact lt_of_lt_of_le (by positivity) (le_toDouble (not_lt.mp hlt))

/-- What is printed reads back. -/
theorem toDouble_closest {m d c : ℕ} (h : closest m d = some c) : toDouble c = d := by
  simp only [closest] at h
  split at h
  case isTrue hlow =>
    split at h
    case isTrue hhigh => exact Option.some.inj h ▸ hhigh.1
    case isFalse => exact Option.some.inj h ▸ hlow
  case isFalse =>
    split at h
    case isTrue hhigh => exact Option.some.inj h ▸ hhigh
    case isFalse => cases h

theorem dvd_closest {m d c : ℕ} (h : closest m d = some c) : m ∣ c := by
  have hlow : m ∣ d / m * m := Dvd.intro_left _ rfl
  have hhigh : m ∣ d / m * m + m := (Nat.dvd_add_self_right).mpr hlow
  simp only [closest] at h
  split at h
  · split at h
    · exact Option.some.inj h ▸ hhigh
    · exact Option.some.inj h ▸ hlow
  · split at h
    · exact Option.some.inj h ▸ hhigh
    · cases h

theorem printedFrom_cases (d e : ℕ) :
    printedFrom d e = d ∨ toDouble (printedFrom d e) = d ∧ 10 ∣ printedFrom d e := by
  induction e with
  | zero => exact .inl rfl
  | succ e ih =>
    rw [printedFrom]
    cases hc : closest (10 ^ (e + 1)) d with
    | none => exact ih
    | some c => exact .inr ⟨toDouble_closest hc, (Dvd.intro_left _ rfl).trans (dvd_closest hc)⟩

theorem le_printed {d : ℕ} (h : 2 ^ 53 ≤ d) : 2 ^ 53 ≤ printed d := by
  rcases printedFrom_cases d (Nat.log 10 d + 1) with heq | ⟨heq, -⟩
  · rw [printed, heq]
    exact h
  · rw [printed]
    by_contra hlt
    rw [toDouble_of_lt (not_le.mp hlt)] at heq
    omega

/-- An even number below `2 ^ 54` is printed as it is. -/
theorem printed_of_even {d : ℕ} (h : d < 2 ^ 54) (heven : 2 ∣ d) : printed d = d := by
  rcases printedFrom_cases d (Nat.log 10 d + 1) with heq | ⟨heq, hten⟩
  · exact heq
  · rw [printed]
    rcases Nat.lt_or_ge (printedFrom d (Nat.log 10 d + 1)) (2 ^ 54) with hlt | hge
    · rwa [toDouble_of_even hlt (Dvd.dvd.trans (by decide) hten)] at heq
    · have := le_toDouble_pow (by decide) hge
      omega

theorem printed_of_lt {d : ℕ} (h : d < 2 ^ 53) : printed d = d := by
  rcases printedFrom_cases d (Nat.log 10 d + 1) with heq | ⟨heq, -⟩
  · exact heq
  · rw [printed]
    by_cases hlt : printedFrom d (Nat.log 10 d + 1) < 2 ^ 53
    · rwa [toDouble_of_lt hlt] at heq
    · have := le_toDouble (not_lt.mp hlt)
      omega

theorem reprinted_pos {n : ℕ} (h : 0 < n) : 0 < reprinted n := by
  have hd := toDouble_pos h
  rcases printedFrom_cases (toDouble n) (Nat.log 10 (toDouble n) + 1) with heq | ⟨heq, -⟩
  · rw [reprinted, printed, heq]
    exact hd
  · rw [reprinted, printed, Nat.pos_iff_ne_zero]
    intro hzero
    rw [hzero, toDouble_zero] at heq
    omega

theorem reprinted_of_lt {n : ℕ} (h : n < 2 ^ 53) : reprinted n = n := by
  rw [reprinted, toDouble_of_lt h, printed_of_lt h]

theorem le_reprinted {n : ℕ} (h : 2 ^ 53 ≤ n) : 2 ^ 53 ≤ reprinted n := le_printed (le_toDouble h)

/-- A text of less than `2 ^ 53` comes from the number it shows. -/
theorem reprinted_eq_self {n : ℕ} (h : reprinted n < 2 ^ 53) : reprinted n = n := by
  rcases Nat.lt_or_ge n (2 ^ 53) with hn | hn
  · exact reprinted_of_lt hn
  · exact absurd (le_reprinted hn) (not_le.mpr h)

end Erascope.Number
