import Mathlib.Data.Int.Log
import Mathlib.Tactic

/-!
# Quotients as doubles

A quotient of integers is rounded to 20 decimal places, half up (`divDecimal`), and the decimal is
read as the nearest double, ties to even (`nearest`). The integer part of the double is the integer
quotient when the numerator is below `2 ^ 53` and the remainder is at least half of the divisor
(`floor_nearest_divDecimal`): the next integer is further away than both roundings go.
-/

namespace Erascope.Number

/-- The nearest integer, ties to even, of a number that is not negative. -/
def roundHalfEven (q : ℚ) : ℕ :=
  if q - ⌊q⌋₊ < 1 / 2 ∨ (q - ⌊q⌋₊ = 1 / 2 ∧ ⌊q⌋₊ % 2 = 0) then ⌊q⌋₊ else ⌊q⌋₊ + 1

/-- The distance of the doubles around a positive number. -/
def unit (q : ℚ) : ℚ := 2 ^ (max (Int.log 2 q) (-1022) - 52)

/-- The nearest double of a positive number, below the largest one. -/
def nearest (q : ℚ) : ℚ := roundHalfEven (q / unit q) * unit q

/-- The quotient with 20 decimal places, half up. -/
def divDecimal (a b : ℕ) : ℚ := ⌊(a / b : ℚ) * 10 ^ 20 + 1 / 2⌋₊ / 10 ^ 20

/-! ## 1. The nearest double -/

theorem unit_pos (q : ℚ) : 0 < unit q := zpow_pos two_pos _

theorem floor_le_roundHalfEven (q : ℚ) : ⌊q⌋₊ ≤ roundHalfEven q := by
  unfold roundHalfEven
  split
  · exact le_refl _
  · exact Nat.le_succ _

theorem roundHalfEven_le {q : ℚ} (hq : 0 ≤ q) : (roundHalfEven q : ℚ) ≤ q + 1 / 2 := by
  have hfloor : (⌊q⌋₊ : ℚ) ≤ q := Nat.floor_le hq
  unfold roundHalfEven
  split
  case isTrue => linarith
  case isFalse h =>
    obtain ⟨hlow, -⟩ := not_or.mp h
    push_cast
    linarith

theorem nearest_le {q : ℚ} (hq : 0 < q) : nearest q ≤ q + unit q / 2 := by
  have hu := unit_pos q
  have hround := roundHalfEven_le (div_nonneg hq.le hu.le)
  calc nearest q ≤ (q / unit q + 1 / 2) * unit q := mul_le_mul_of_nonneg_right hround hu.le
    _ = q + unit q / 2 := by field_simp

/-- An integer below `2 ^ 53` is not passed. -/
theorem le_nearest {q : ℚ} {k : ℕ} (hq : 0 < q) (hk : (k : ℚ) ≤ q) (hsmall : q < 2 ^ 53) :
    (k : ℚ) ≤ nearest q := by
  have hu := unit_pos q
  -- the unit is a power of two with an exponent that is not positive
  obtain ⟨n, hn⟩ : ∃ n : ℕ, max (Int.log 2 q) (-1022) - 52 = -(n : ℤ) := by
    have hlog : Int.log 2 q < 53 := by
      have hle : (2 : ℚ) ^ Int.log 2 q ≤ q := by
        exact_mod_cast Int.zpow_log_le_self (b := 2) (by decide) hq
      have hlt : (2 : ℚ) ^ Int.log 2 q < 2 ^ (53 : ℤ) := hle.trans_lt (by exact_mod_cast hsmall)
      exact (zpow_lt_zpow_iff_right₀ (by norm_num)).mp hlt
    exact ⟨(52 - max (Int.log 2 q) (-1022)).toNat, by omega⟩
  have hunit : unit q = ((2 : ℚ) ^ n)⁻¹ := by rw [unit, hn, zpow_neg, zpow_natCast]
  have hmul : ((k * 2 ^ n : ℕ) : ℚ) ≤ q / unit q := by
    rw [hunit, div_inv_eq_mul]
    push_cast
    exact mul_le_mul_of_nonneg_right hk (by positivity)
  have hfloor : k * 2 ^ n ≤ ⌊q / unit q⌋₊ := Nat.le_floor hmul
  have hround : ((k * 2 ^ n : ℕ) : ℚ) ≤ roundHalfEven (q / unit q) :=
    Nat.cast_le.mpr (hfloor.trans (floor_le_roundHalfEven _))
  calc (k : ℚ) = ((k * 2 ^ n : ℕ) : ℚ) * unit q := by
        rw [hunit]
        push_cast
        field_simp
    _ ≤ nearest q := mul_le_mul_of_nonneg_right hround hu.le

/-- The unit of a number is small against the integer below it. -/
theorem unit_le {q : ℚ} {k : ℕ} (hk : 0 < k) (hle : (k : ℚ) ≤ q) (hlt : q < k + 1) :
    unit q / 2 ≤ k / 2 ^ 53 := by
  have hone : 1 ≤ q := le_trans (by exact_mod_cast hk) hle
  have hfloor : ⌊q⌋₊ = k := (Nat.floor_eq_iff (by linarith)).mpr ⟨hle, hlt⟩
  have hlog : max (Int.log 2 q) (-1022) = (Nat.log 2 k : ℤ) := by
    rw [Int.log_of_one_le_right 2 hone, hfloor]
    omega
  have hpow : ((2 ^ Nat.log 2 k : ℕ) : ℚ) ≤ k := Nat.cast_le.mpr (Nat.pow_log_le_self 2 hk.ne')
  have hunit : unit q / 2 = ((2 ^ Nat.log 2 k : ℕ) : ℚ) / 2 ^ 53 := by
    rw [unit, hlog, zpow_sub₀ (by norm_num)]
    push_cast
    rw [zpow_natCast]
    norm_num
    ring
  rw [hunit]
  exact div_le_div_of_nonneg_right hpow (by positivity)

theorem unit_le_of_lt_one {q : ℚ} (hq : 0 < q) (hlt : q < 1) : unit q / 2 ≤ 1 / 2 ^ 54 := by
  have hlog : Int.log 2 q < 0 := by
    have hle : (2 : ℚ) ^ Int.log 2 q ≤ q := by
      exact_mod_cast Int.zpow_log_le_self (b := 2) (by decide) hq
    have hpow : (2 : ℚ) ^ Int.log 2 q < 2 ^ (0 : ℤ) := hle.trans_lt (by simpa using hlt)
    exact (zpow_lt_zpow_iff_right₀ (by norm_num)).mp hpow
  have hunit : unit q ≤ 2 ^ (-53 : ℤ) := zpow_le_zpow_right₀ (by norm_num) (by omega)
  calc unit q / 2 ≤ 2 ^ (-53 : ℤ) / 2 := div_le_div_of_nonneg_right hunit (by norm_num)
    _ = 1 / 2 ^ 54 := by norm_num

/-! ## 2. A quotient -/

section
variable {a b : ℕ}

theorem divDecimal_le : divDecimal a b ≤ a / b + 1 / 2 / 10 ^ 20 := by
  have hfloor : (⌊(a / b : ℚ) * 10 ^ 20 + 1 / 2⌋₊ : ℚ) ≤ (a / b : ℚ) * 10 ^ 20 + 1 / 2 :=
    Nat.floor_le (by positivity)
  rw [divDecimal, div_le_iff₀ (by positivity)]
  linarith

theorem le_divDecimal : ((a / b : ℕ) : ℚ) ≤ divDecimal a b := by
  have hdiv : ((a / b : ℕ) : ℚ) ≤ a / b := Nat.cast_div_le
  have hfloor : a / b * 10 ^ 20 ≤ ⌊(a / b : ℚ) * 10 ^ 20 + 1 / 2⌋₊ := by
    refine Nat.le_floor ?_
    push_cast
    linarith
  rw [divDecimal, le_div_iff₀ (by positivity)]
  exact_mod_cast hfloor

theorem lt_divDecimal : (a / b : ℚ) - 1 / 2 / 10 ^ 20 < divDecimal a b := by
  have hfloor : (a / b : ℚ) * 10 ^ 20 + 1 / 2 < ⌊(a / b : ℚ) * 10 ^ 20 + 1 / 2⌋₊ + 1 :=
    Nat.lt_floor_add_one _
  rw [divDecimal, lt_div_iff₀ (by positivity)]
  linarith

/-- The integer part of the quotient as a double, from half of the divisor on. -/
theorem floor_nearest_divDecimal (ha : a < 2 ^ 53) (hb : 0 < b) (hhalf : b ≤ 2 * (a % b)) :
    ⌊nearest (divDecimal a b)⌋₊ = a / b := by
  have hbq : (0 : ℚ) < b := Nat.cast_pos.mpr hb
  have hmod : a % b < b := Nat.mod_lt a hb
  have hsplit : (a : ℚ) = b * (a / b : ℕ) + (a % b : ℕ) := by exact_mod_cast (Nat.div_add_mod a b).symm
  have hlow := le_divDecimal (a := a) (b := b)
  have hhigh := divDecimal_le (a := a) (b := b)
  have hnear := lt_divDecimal (a := a) (b := b)
  generalize hk : a / b = k at *
  generalize hr : a % b = r at *
  set q := divDecimal a b
  have hx : (a / b : ℚ) = k + r / b := by
    rw [hsplit]
    field_simp
  have hrest : (r : ℚ) / b = 1 - (b - r) / b := by field_simp; ring
  have hrhalf : (1 : ℚ) / 2 ≤ r / b := by
    rw [le_div_iff₀ hbq]
    have : (b : ℚ) ≤ 2 * r := by exact_mod_cast hhalf
    linarith
  have hq : 0 < q := by
    have hknonneg : (0 : ℚ) ≤ k := Nat.cast_nonneg k
    rw [hx] at hnear
    linarith
  -- both roundings together stay below the distance to the next integer
  have hgap : q < k + 1 → unit q / 2 + 1 / 2 ^ 54 ≤ (b - r) / b := by
    intro hlt
    have hrb : (r : ℚ) + 1 ≤ b := by exact_mod_cast hmod
    rw [le_div_iff₀ hbq]
    rcases Nat.eq_zero_or_pos k with hzero | hpos
    · have hunit := unit_le_of_lt_one hq (by rw [hzero] at hlt; simpa using hlt)
      have har : (r : ℚ) + 1 ≤ 2 ^ 53 := by
        have : r + 1 ≤ 2 ^ 53 := by
          have : a = r := by simpa [hzero] using hsplit
          omega
        exact_mod_cast this
      nlinarith
    · have hunit := unit_le hpos hlow hlt
      have hak : (b : ℚ) * k + r + 1 ≤ 2 ^ 53 := by rw [← hsplit]; exact_mod_cast ha
      have h2r : (b : ℚ) ≤ 2 * r := by exact_mod_cast hhalf
      have hmul := mul_le_mul_of_nonneg_right hunit hbq.le
      nlinarith
  have hlt : q < k + 1 := by
    have hrb : (r : ℚ) + 1 ≤ b := by exact_mod_cast hmod
    have hbig : (b : ℚ) ≤ 2 ^ 54 := by
      have : b ≤ 2 ^ 54 := by
        have : r ≤ a := hr ▸ Nat.mod_le a b
        omega
      exact_mod_cast this
    have hfar : (1 : ℚ) / 2 ^ 54 ≤ (b - r) / b := by
      rw [div_le_div_iff₀ (by positivity) hbq]
      nlinarith
    rw [hx, hrest] at hhigh
    norm_num at hhigh hfar ⊢
    linarith
  have hbelow : nearest q < k + 1 := by
    have hnearest := nearest_le hq
    have hgap := hgap hlt
    rw [hx, hrest] at hhigh
    norm_num at hhigh hgap hnearest ⊢
    linarith
  have habove : (k : ℚ) ≤ nearest q := by
    refine le_nearest hq hlow (hlt.trans_le ?_)
    have : k + 1 ≤ 2 ^ 53 := by
      have : k ≤ a := hk ▸ Nat.div_le_self a b
      omega
    exact_mod_cast this
  exact (Nat.floor_eq_iff (le_trans (Nat.cast_nonneg k) habove)).mpr ⟨habove, hbelow⟩

end

end Erascope.Number
