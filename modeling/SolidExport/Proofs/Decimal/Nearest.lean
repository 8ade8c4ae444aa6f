/-
  Decimals and the doubles nearest to them.

  A decimal has an exact value (`Decimal.value`).  The double it is taken to is the nearest one
  (`rounds_toFloat`), with the two shortcuts at the ends: far above the range it is infinite, and far
  below the least positive double it is zero.
-/
import SolidExport.Proofs.Double.Near

namespace SolidExport

/-- `d.value` — the exact value of the decimal `d`, which a double may lie beside. -/
def Decimal.value (d : Decimal) : ℚ := d.coefficient * 10 ^ d.exponent

namespace Double

open Float.Model (Format UnpackedFloat)
open Float.Model.UnpackedFloat

/-! ## Digits and a power of ten -/

theorem HasValue.of_unpack {x y : Float} {v : ℚ} (h : HasValue x v)
    (hxy : y.toModel.unpack = x.toModel.unpack) : HasValue y v := by
  cases h with
  | zero h => exact .zero (hxy.trans h)
  | finite h => exact .finite (hxy.trans h)

/-- A word `n` of at most fifty-three bits is converted to a double with just its value. -/
theorem hasValue_word {n : ℕ} (h53 : n < 2 ^ 53) : HasValue n.toUInt64.toFloat n := by
  rcases Nat.eq_zero_or_pos n with rfl | hn
  · exact (hasValue_ofNat h53.le).of_unpack rfl
  · exact (hasValue_ofNat h53.le).of_unpack
      ((unpack_toFloat_word hn h53).trans (unpack_ofNat hn h53).symm)

/-- The powers of ten that the library keeps in a table are doubles, and each is the power that its
    index says. -/
theorem hasValue_power {e : ℕ} (h : e < Float.exactlyRepresentablePowersOfTen.size) :
    HasValue Float.exactlyRepresentablePowersOfTen[e] (10 ^ e : ℕ) := by
  have hall : ∀ k : Fin 23,
      (Float.exactlyRepresentablePowersOfTen[k.val]?).bind toNat? = some (10 ^ k.val) := by
    decide
  have hpower := hall ⟨e, h⟩
  rw [Array.getElem?_eq_getElem h, Option.bind_some] at hpower
  exact toNat?_eq_some_iff.mp hpower

/-- What a multiplication of the digits `n` by a power `p` of ten hands to the rounding: their exact
    product, with fifty-three more bits behind the point. -/
theorem mul_digits {n p : ℕ} (hn : 0 < n <<< 53) (hp : 0 < p) :
    UnpackedFloat.mul Format.binary64 (.finite .positive (n <<< 53) (-53) hn)
        (.finite .positive p 0 hp)
      = roundWithAccuracy Format.binary64 .positive (n * 2 ^ 53 * p) (-53) .exact := by
  rw [← Nat.shiftLeft_eq]
  rfl

/-- Away from the ends of the range the exact number `n * 10 ^ e` is computed and rounded once.  At
    the ends the model answers without computing it. -/
theorem rounds_ofModel {x : Float} {n : ℕ} {e : ℤ} (hn : 0 < n) (hmost : e ≤ 2 ^ 11)
    (hleast : -(2 ^ 11 + n.log2) ≤ e)
    (hx : x.toModel.unpack
      = (Float.Model.pack (UnpackedFloat.ofScientific Format.binary64 n e)).unpack) :
    Rounds x (n * 10 ^ e) := by
  have hlow : ¬ e < -((2 ^ Format.binary64.exponentBits : ℤ) + n.log2) := not_lt.mpr hleast
  have hhigh : ¬ e > (2 ^ Format.binary64.exponentBits : ℤ) := not_lt.mpr hmost
  unfold UnpackedFloat.ofScientific at hx
  rw [dif_neg hn.ne', if_neg hhigh, if_neg hlow] at hx
  by_cases he : 0 ≤ e
  · -- fifty-three zeros are put behind the digits before they are multiplied
    rw [if_pos he] at hx
    have hpower : 0 < 10 ^ e.toNat := by positivity
    have hshifted : 0 < n <<< 53 := by
      rw [Nat.shiftLeft_eq]
      positivity
    have hvalue : (n : ℚ) * (10 : ℚ) ^ e = (n * 2 ^ 53 * 10 ^ e.toNat : ℕ) * 2 ^ (-53 : ℤ) := by
      obtain ⟨k, rfl⟩ := Int.eq_ofNat_of_zero_le he
      rw [Int.toNat_natCast, zpow_natCast]
      push_cast
      norm_num
      ring
    have hfull : 2 ^ 52 ≤ n * 2 ^ 53 * 10 ^ e.toNat := by
      calc 2 ^ 52 ≤ 1 * 2 ^ 53 * 1 := by norm_num
        _ ≤ n * 2 ^ 53 * 10 ^ e.toNat := Nat.mul_le_mul (Nat.mul_le_mul_right _ hn) hpower
    have hround := congrArg (fun u => (Float.Model.pack u).unpack) (mul_digits hshifted hpower)
    rw [hvalue]
    exact rounds_exact (by positivity) (Or.inl hfull) (hx.trans hround)
  · rw [if_neg he] at hx
    have hpower : 0 < 10 ^ (-e).toNat := by positivity
    obtain ⟨q, k, a, hround, hstands, hk⟩ := div_finite .positive .positive 0 0 hn hpower
    have hvalue : (n : ℚ) * 2 ^ (0 : ℤ) / ((10 ^ (-e).toNat : ℕ) * 2 ^ (0 : ℤ)) = n * 10 ^ e := by
      obtain ⟨j, hj⟩ := Int.eq_ofNat_of_zero_le (show 0 ≤ -e by omega)
      rw [hj, Int.toNat_natCast, show e = -(j : ℤ) by omega, zpow_neg, zpow_natCast]
      push_cast
      norm_num
      rfl
    rw [hround] at hx
    rw [hvalue] at hstands hk
    exact rounds_of_unpack (by positivity) hstands hk hx

/-- **Digits and a power of ten give the nearest double**, as long as the power `e` is within what
    the model computes with. -/
theorem rounds_ofScientific {n e : ℕ} (hn : 0 < n) (he : e ≤ 2 ^ 11) :
    Rounds (Float.ofScientific n false e) (n * 10 ^ (e : ℤ)) := by
  by_cases hfast : n < 2 ^ 53 ∧ e ≤ 22
  · unfold Float.ofScientific
    rw [dif_pos hfast]
    have hsize : e < Float.exactlyRepresentablePowersOfTen.size := Nat.lt_succ_of_le hfast.2
    exact_mod_cast rounds_mul (hasValue_word hfast.1) (hasValue_power hsize)
  · refine rounds_ofModel hn (by exact_mod_cast he) (by omega) ?_
    unfold Float.ofScientific
    rw [dif_neg hfast]
    rfl

/-- Digits over a power of ten give the nearest double, as long as the power `e` is within what the
    model computes with.  The digits `n` may be many, and make up for as many places. -/
theorem rounds_ofScientific_neg {n e : ℕ} (hn : 0 < n) (he : e ≤ 2 ^ 11 + n.log2) :
    Rounds (Float.ofScientific n true e) (n * 10 ^ (-(e : ℤ))) := by
  by_cases hfast : n < 2 ^ 53 ∧ e ≤ 22
  · unfold Float.ofScientific
    rw [dif_pos hfast]
    have hsize : e < Float.exactlyRepresentablePowersOfTen.size := Nat.lt_succ_of_le hfast.2
    have hdiv := rounds_div (hasValue_word hfast.1) (hasValue_power hsize) (by positivity)
    rw [zpow_neg, zpow_natCast, ← div_eq_mul_inv]
    exact_mod_cast hdiv
  · refine rounds_ofModel hn (by omega) (by omega) ?_
    unfold Float.ofScientific
    rw [dif_neg hfast]
    cases e <;> rfl

/-! ## Decimals -/

/-- Half of the least positive double is above `10 ^ -400`, so what is smaller is rounded to
    zero. -/
theorem two_pow_lt_ten_pow : (2 : ℚ) ^ 1075 < 10 ^ 400 := by
  calc (2 : ℚ) ^ 1075 < 2 ^ (3 * 400) := by gcongr <;> norm_num
    _ = (2 ^ 3) ^ 400 := pow_mul _ _ _
    _ ≤ 10 ^ 400 := by gcongr; norm_num

/-- **A decimal is taken to the nearest double**, be it at the ends of the range, where it is not
    computed, or in between. -/
theorem rounds_toFloat (d : Decimal) : Rounds d.toFloat d.value := by
  unfold Decimal.toFloat Decimal.value
  split_ifs with hzero hhigh hlow
  · rw [hzero, Nat.cast_zero, zero_mul]
    exact hasValue_zero.rounds
  · -- a power of ten above 400 is past the range
    have hone : (1 : ℚ) ≤ d.coefficient := by exact_mod_cast Nat.pos_of_ne_zero hzero
    have hpast : (2 : ℚ) ^ 1024 ≤ d.coefficient * 10 ^ d.exponent := by
      calc (2 : ℚ) ^ 1024 ≤ 2 ^ 1075 := by gcongr <;> norm_num
        _ ≤ 1 * 10 ^ (400 : ℤ) := by
          rw [one_mul]
          exact_mod_cast two_pow_lt_ten_pow.le
        _ ≤ d.coefficient * 10 ^ d.exponent := by gcongr; norm_num
    have hhalfway : (2 : ℚ) ^ 1024 - 2 ^ 970 ≤ 2 ^ 1024 := sub_le_self _ (by positivity)
    right
    exact ⟨rfl, (range_le_rounded_iff (by positivity)).mpr (hhalfway.trans hpast)⟩
  · -- a number is below the power of ten that has a zero for each of its bits
    have hn : 0 < d.coefficient := Nat.pos_of_ne_zero hzero
    have hsmall : (d.coefficient : ℚ) * 10 ^ d.exponent < 2 ^ (-1075 : ℤ) := by
      have hbits : (d.coefficient : ℚ) ≤ 10 ^ ((d.coefficient.log2 + 1 : ℕ) : ℤ) := by
        rw [zpow_natCast]
        calc (d.coefficient : ℚ) ≤ 2 ^ (d.coefficient.log2 + 1) := by
              exact_mod_cast Nat.lt_log2_self.le
          _ ≤ 10 ^ (d.coefficient.log2 + 1) := by gcongr; norm_num
      calc (d.coefficient : ℚ) * 10 ^ d.exponent
          ≤ 10 ^ ((d.coefficient.log2 + 1 : ℕ) : ℤ) * 10 ^ d.exponent := by gcongr
        _ = 10 ^ (d.exponent + (d.coefficient.log2 + 1 : ℕ)) := by
          rw [← zpow_add₀ (by norm_num), add_comm]
        _ ≤ 10 ^ (-400 : ℤ) := by gcongr; norm_num
        _ < 2 ^ (-1075 : ℤ) := by
          rw [zpow_neg, zpow_neg]
          exact inv_strictAnti₀ (by positivity) (by exact_mod_cast two_pow_lt_ten_pow)
    have hrounded := rounded_eq_zero (by positivity) hsmall
    left
    rw [hrounded]
    exact ⟨hasValue_zero, by positivity⟩
  · have hn : 0 < d.coefficient := Nat.pos_of_ne_zero hzero
    cases he : d.exponent with
    | ofNat e =>
      rw [he, Int.ofNat_eq_natCast] at hhigh
      exact rounds_ofScientific hn (by omega)
    | negSucc e =>
      rw [he] at hlow
      exact rounds_ofScientific_neg hn (by omega)

end Double

end SolidExport
