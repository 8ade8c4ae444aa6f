/-
  Rounding to significant digits, near the end of the doubles.

  A decimal is rounded to the nearest multiple of a power of ten (`le_roundTo_iff`).  The greatest
  double has 309 digits before the point, so with `digits` significant digits the first number past
  the doubles is `firstPast digits` with `309 - digits` zeros, and what is half a unit below it is
  rounded to it: `overflowBound digits`.  From there on, and only there, rounding to significant
  digits leads past the doubles (`past_roundTo_iff`).
-/
import Mathlib.Algebra.Order.Floor.Div
import SolidExport.Proofs.Decimal.Shortest

namespace SolidExport

namespace Decimal

variable {d : Decimal} {digits : ℕ}

/-! ## Digits -/

theorem digitCount_le_iff {n k : ℕ} (hk : 0 < k) : digitCount n ≤ k ↔ n < 10 ^ k :=
  Nat.length_toDigits_le_iff (by decide) hk

theorem lt_ten_pow (n : ℕ) : n < 10 ^ digitCount n :=
  (digitCount_le_iff Nat.length_toDigits_pos).mp le_rfl

theorem ten_pow_le {n k : ℕ} (hk : 0 < k) (h : k < digitCount n) : 10 ^ k ≤ n :=
  not_lt.mp fun hlt => absurd ((digitCount_le_iff hk).mpr hlt) (not_le.mpr h)

/-! ## Rounding -/

/-- The coefficient of a rounded decimal is the nearest multiple of the unit that is left. -/
theorem le_roundTo_iff (h : digits < digitCount d.coefficient) (n : ℕ) :
    n ≤ (d.roundTo digits).coefficient ↔
      2 * n * 10 ^ (digitCount d.coefficient - digits)
        ≤ 2 * d.coefficient + 10 ^ (digitCount d.coefficient - digits) := by
  unfold roundTo
  dsimp only
  rw [if_neg (not_le.mpr h)]
  have hunit : 0 < 10 ^ (digitCount d.coefficient - digits) := by positivity
  generalize 10 ^ (digitCount d.coefficient - digits) = unit at hunit ⊢
  have hdiv := Nat.div_add_mod d.coefficient unit
  have hmod := Nat.mod_lt d.coefficient hunit
  generalize d.coefficient / unit = whole at hdiv ⊢
  generalize d.coefficient % unit = rest at hdiv hmod ⊢
  rw [← hdiv]
  have hquotient : (if unit ≤ 2 * rest then whole + 1 else whole)
      = (2 * (unit * whole + rest) + unit) / (2 * unit) := by
    rw [show 2 * (unit * whole + rest) + unit = 2 * unit * whole + (2 * rest + unit) by ring,
      Nat.mul_add_div (by omega)]
    split_ifs with hle
    · rw [Nat.div_eq_of_lt_le (k := 1) (by omega) (by omega)]
    · rw [Nat.div_eq_of_lt (by omega), Nat.add_zero]
  rw [hquotient, Nat.le_div_iff_mul_le (by omega), show n * (2 * unit) = 2 * n * unit by ring]

theorem exponent_roundTo (h : digits < digitCount d.coefficient) :
    (d.roundTo digits).exponent = d.exponent + (digitCount d.coefficient - digits : ℕ) := by
  unfold roundTo
  dsimp only
  rw [if_neg (not_le.mpr h)]

end Decimal

/-! ## The end of the doubles -/

namespace Double

/-- The number halfway from the greatest double to the power of two past it.  From here on a number
    is rounded to infinity. -/
def halfway : ℕ := 2 ^ 1024 - 2 ^ 970

/-- `firstPast digits` — the least coefficient of `digits` digits such that the number, with
    `309 - digits` zeros behind it, is past the doubles. -/
def firstPast (digits : ℕ) : ℕ := halfway ⌈/⌉ 10 ^ (309 - digits)

/-- `overflowBound digits` — the least number that is rounded past the doubles with `digits`
    significant digits: half a unit of the last digit below the first number there. -/
def overflowBound (digits : ℕ) : ℚ := (firstPast digits - 1 / 2) * 10 ^ (309 - digits)

/-- The end of the doubles lies below `10 ^ 309`, so among the numbers of 309 digits. -/
theorem two_pow_lt : 2 ^ 1024 < 10 ^ 309 := by
  decide +kernel

theorem halfway_ge : 3 * 10 ^ 308 ≤ 2 * halfway := by
  decide +kernel

theorem cast_two_pow_sub {m n : ℕ} (h : n ≤ m) : ((2 ^ m - 2 ^ n : ℕ) : ℚ) = 2 ^ m - 2 ^ n := by
  rw [Nat.cast_sub (Nat.pow_le_pow_right (by decide) h), Nat.cast_pow, Nat.cast_pow, Nat.cast_ofNat]

theorem cast_halfway : (halfway : ℚ) = 2 ^ 1024 - 2 ^ 970 := cast_two_pow_sub (by decide)

theorem firstPast_le_iff {digits n : ℕ} :
    firstPast digits ≤ n ↔ halfway ≤ n * 10 ^ (309 - digits) := by
  unfold firstPast
  rw [ceilDiv_le_iff_le_mul (by positivity), Nat.mul_comm]

example : [1, 2, 3, 4, 5].map firstPast = [2, 18, 180, 1798, 17977] := by decide +kernel

/-- The bound for any number of digits lies at `10 ^ 308` or above, so numbers of fewer digits
    before the point are never rounded past the doubles. -/
theorem ten_pow_le_overflowBound {digits : ℕ} (hone : 1 ≤ digits) :
    10 ^ 308 ≤ overflowBound digits := by
  have hhalfway : (3 * 10 ^ 308 : ℚ) ≤ 2 * halfway := by exact_mod_cast halfway_ge
  have hpast : (halfway : ℚ) ≤ firstPast digits * 10 ^ (309 - digits) := by
    exact_mod_cast firstPast_le_iff.mp le_rfl
  have hunit : (10 : ℚ) ^ (309 - digits) ≤ 10 ^ 308 := by
    gcongr
    · norm_num
    · omega
  unfold overflowBound
  generalize (10 : ℚ) ^ 308 = u at hhalfway hunit ⊢
  linarith only [hhalfway, hpast, hunit]

end Double

open Double (halfway overflowBound firstPast)

namespace Decimal

variable {d : Decimal} {digits : ℕ}

theorem value_eq_div {j : ℕ} (hj : d.exponent = -(j : ℤ)) : d.value = d.coefficient / 10 ^ j := by
  unfold value
  rw [hj, zpow_neg, zpow_natCast, div_eq_mul_inv]

/-- The value of a decimal `d` that is rounded, over the power of ten that `d` had: a coefficient
    with zeros in the place of the digits that are gone. -/
theorem value_roundTo {j : ℕ} (hj : d.exponent = -(j : ℤ))
    (h : digits < digitCount d.coefficient) :
    (d.roundTo digits).value = ((d.roundTo digits).coefficient
      * 10 ^ (digitCount d.coefficient - digits) : ℕ) / 10 ^ j := by
  unfold value
  rw [exponent_roundTo h, hj, zpow_add₀ (by norm_num), zpow_neg, zpow_natCast, zpow_natCast]
  push_cast
  ring

/-- Rounding leads to the next power of ten at most, as from `999` to `1000`. -/
theorem roundTo_le (h : digits < digitCount d.coefficient) :
    (d.roundTo digits).coefficient * 10 ^ (digitCount d.coefficient - digits)
      ≤ 10 ^ digitCount d.coefficient := by
  have hmore := lt_ten_pow d.coefficient
  have hround := le_roundTo_iff h (10 ^ digits + 1)
  have hsplit : 10 ^ digits * 10 ^ (digitCount d.coefficient - digits)
      = 10 ^ digitCount d.coefficient := by
    rw [← pow_add, Nat.add_sub_cancel' h.le]
  have hunit : 0 < 10 ^ (digitCount d.coefficient - digits) := by positivity
  rw [mul_add, add_mul, mul_assoc, hsplit] at hround
  rw [← hsplit]
  refine Nat.mul_le_mul_right _ (Nat.le_of_lt_succ (not_le.mp fun hle => ?_))
  have hpast := hround.mp hle
  omega

/-- A decimal with no more than 308 digits before the point stays below the end of the doubles, and
    rounding does not change that. -/
theorem roundTo_below (digits : ℕ) {j : ℕ} (hj : d.exponent = -(j : ℤ))
    (h : digitCount d.coefficient ≤ 308 + j) :
    d.value < 10 ^ 308 ∧ (d.roundTo digits).value ≤ 10 ^ 308 := by
  have hpower : (0 : ℚ) < 10 ^ j := by positivity
  have hcount : (10 : ℚ) ^ digitCount d.coefficient ≤ 10 ^ 308 * 10 ^ j := by
    rw [← pow_add]
    exact pow_le_pow_right₀ (by norm_num) h
  have hvalue : d.value < 10 ^ 308 := by
    rw [value_eq_div hj, div_lt_iff₀ hpower]
    exact lt_of_lt_of_le (by exact_mod_cast lt_ten_pow d.coefficient) hcount
  refine ⟨hvalue, ?_⟩
  rcases le_or_gt (digitCount d.coefficient) digits with hshort | hlong
  · have hsame : d.roundTo digits = d := if_pos hshort
    rw [hsame]
    exact hvalue.le
  · rw [value_roundTo hj hlong, div_le_iff₀ hpower]
    exact le_trans (by exact_mod_cast roundTo_le hlong) hcount

/-- With 309 digits before the point the bound decides: the rounded decimal is past the doubles
    exactly if the decimal itself is at the bound or above. -/
theorem past_roundTo_iff_of_count {j : ℕ} (hj : d.exponent = -(j : ℤ)) (hdigits : digits < 309)
    (hcount : digitCount d.coefficient = 309 + j) :
    halfway ≤ (d.roundTo digits).value ↔ overflowBound digits ≤ d.value := by
  have hlong : digits < digitCount d.coefficient := by omega
  have hpower : (0 : ℚ) < 10 ^ j := by positivity
  have hsplit : digitCount d.coefficient - digits = 309 - digits + j := by omega
  have hround := le_roundTo_iff hlong (firstPast digits)
  have hvalue := value_roundTo hj hlong
  rw [hsplit] at hround hvalue
  have hcut : (d.roundTo digits).value
      = ((d.roundTo digits).coefficient * 10 ^ (309 - digits) : ℕ) := by
    rw [hvalue, pow_add, ← mul_assoc, Nat.cast_mul, Nat.cast_pow 10 j, Nat.cast_ofNat, mul_div_assoc,
      div_self hpower.ne', mul_one]
  rw [hcut, Nat.cast_le, ← Double.firstPast_le_iff, hround, value_eq_div hj, le_div_iff₀ hpower,
    ← Nat.cast_le (α := ℚ)]
  unfold overflowBound
  push_cast
  rw [pow_add]
  constructor
  · intro h
    linarith only [h]
  · intro h
    linarith only [h]

/-- **Where rounding leads past the doubles.**  A decimal of the range of doubles that leaves off no
    zeros is rounded past the doubles from the bound on, and only there. -/
theorem past_roundTo_iff (he : d.exponent ≤ 0) (hone : 1 ≤ digits) (hdigits : digits < 309)
    (hrange : d.value < 10 ^ 309) :
    halfway ≤ (d.roundTo digits).value ↔ overflowBound digits ≤ d.value := by
  obtain ⟨j, hj⟩ : ∃ j : ℕ, d.exponent = -(j : ℤ) := ⟨(-d.exponent).toNat, by omega⟩
  rcases lt_trichotomy (digitCount d.coefficient) (309 + j) with hbelow | htop | habove
  · obtain ⟨hvalue, hrounded⟩ := roundTo_below digits hj (by omega)
    have hbound := Double.ten_pow_le_overflowBound hone
    have hhalfway : (3 * 10 ^ 308 : ℚ) ≤ 2 * halfway := by exact_mod_cast Double.halfway_ge
    refine iff_of_false (not_le.mpr ?_) (not_le.mpr (hvalue.trans_le hbound))
    have hpos : (0 : ℚ) < 10 ^ 308 := by positivity
    generalize (10 : ℚ) ^ 308 = u at *
    linarith only [hrounded, hhalfway, hpos]
  · exact past_roundTo_iff_of_count hj hdigits htop
  · -- more digits are past the range
    have hless : 10 ^ (309 + j) ≤ d.coefficient := ten_pow_le (by omega) habove
    rw [value_eq_div hj, div_lt_iff₀ (by positivity), ← pow_add] at hrange
    exact absurd (by exact_mod_cast hless) hrange.not_ge

end Decimal

end SolidExport
