/-
  The shortest decimal of a double is read back as that double.

  The search looks for a decimal inside the interval of a double: whatever grid it stops at, it gives
  a point there (`coarsest?_holds`).  Every number in the interval is rounded to the double
  (`rounded_of_holds`), so nothing is lost (`rounded_shortest`).
-/
import SolidExport.Decimal.Shortest
import SolidExport.Proofs.Decimal.Nearest

namespace SolidExport

open Double (Fits rounded)

/-! ## Values -/

namespace Decimal

theorem value_stripZeros (fuel : ℕ) (d : Decimal) : (stripZeros fuel d).value = d.value := by
  induction fuel generalizing d with
  | zero => rfl
  | succ fuel ih =>
    unfold stripZeros
    split_ifs with hzero
    · rw [ih]
      have hten : 10 * (d.coefficient / 10) = d.coefficient := by omega
      have hcast : (10 : ℚ) * (d.coefficient / 10 : ℕ) = d.coefficient := by exact_mod_cast hten
      unfold value
      rw [zpow_add_one₀ (by norm_num), ← hcast]
      ring
    · rfl

/-- Moving the zeros at the end of a coefficient to the exponent keeps the value. -/
theorem value_normalize (d : Decimal) : d.normalize.value = d.value := value_stripZeros _ d

end Decimal

namespace Binary

variable {b : Binary} {n : ℕ}

/-- `b.unit` — what one in the last binary place of `b` counts in the decimal that is exactly `b`.
    All comparisons of the search are in multiples of a quarter of it, so that they are exact. -/
def unit (b : Binary) : ℕ :=
  match b.exponent with
  | .ofNat e => 2 ^ e
  | .negSucc e => 5 ^ (e + 1)

theorem unit_pos (b : Binary) : 0 < b.unit := by
  unfold unit
  split <;> positivity

theorem unit_mul (b : Binary) : (b.unit : ℚ) * 10 ^ b.toDecimal.exponent = 2 ^ b.exponent := by
  unfold unit toDecimal
  cases b.exponent with
  | ofNat e =>
    dsimp only
    rw [zpow_zero, mul_one, Nat.cast_pow, Nat.cast_ofNat, Int.ofNat_eq_natCast, zpow_natCast]
  | negSucc e =>
    dsimp only
    rw [zpow_negSucc, zpow_negSucc, Nat.cast_pow, Nat.cast_ofNat, ← div_eq_mul_inv, ← div_pow,
      ← inv_pow]
    norm_num

theorem coefficient_toDecimal (b : Binary) :
    b.toDecimal.coefficient = b.significand * b.unit := by
  unfold unit toDecimal
  cases b.exponent <;> rfl

/-- The exact decimal of `b` has the value of its magnitude. -/
theorem value_toDecimal (b : Binary) : b.toDecimal.value = b.significand * 2 ^ b.exponent := by
  unfold Decimal.value
  rw [coefficient_toDecimal, Nat.cast_mul, mul_assoc, unit_mul]

/-- The exact decimal of `b` leaves off no zeros, so all digits before its point are written out. -/
theorem exponent_toDecimal (b : Binary) : b.toDecimal.exponent ≤ 0 := by
  unfold toDecimal
  cases b.exponent with
  | ofNat e => exact le_rfl
  | negSucc e => exact (Int.negSucc_lt_zero e).le

/-! ## The interval of a double -/

theorem interval_eq (b : Binary) : b.interval =
    ⟨4 * (b.significand * b.unit),
      4 * (b.significand * b.unit)
        - (if b.significand = 2 ^ 52 ∧ b.exponent ≠ -1074 then b.unit else 2 * b.unit),
      4 * (b.significand * b.unit) + 2 * b.unit, b.significand % 2 == 0⟩ := rfl

/-- The bounds of a number `n` that the interval of `b` holds: half a unit to either side, a quarter
    below where the doubles get denser, and the ends themselves only if `b` is even. -/
theorem bounds_of_holds (hm : 0 < b.significand) (h : b.interval.holds n = true) :
    4 * (b.significand * b.unit) ≤ 4 * n + 2 * b.unit ∧
      (b.significand = 2 ^ 52 → b.exponent ≠ -1074 →
        4 * (b.significand * b.unit) ≤ 4 * n + b.unit) ∧
      4 * n ≤ 4 * (b.significand * b.unit) + 2 * b.unit ∧
      (b.significand % 2 = 1 → 4 * (b.significand * b.unit) < 4 * n + 2 * b.unit ∧
        4 * n < 4 * (b.significand * b.unit) + 2 * b.unit) := by
  have hunit := b.unit_pos
  have hcenter : b.unit ≤ b.significand * b.unit := Nat.le_mul_of_pos_left _ hm
  rw [interval_eq] at h
  unfold Interval.holds at h
  generalize b.significand * b.unit = center at h hcenter ⊢
  dsimp only at h
  by_cases hpower : b.significand = 2 ^ 52 ∧ b.exponent ≠ -1074
  · rw [if_pos hpower, hpower.1] at h
    rw [if_pos (by decide), Bool.and_eq_true, decide_eq_true_eq, decide_eq_true_eq] at h
    rw [hpower.1]
    refine ⟨by omega, fun _ _ => by omega, by omega, fun hodd => absurd hodd (by decide)⟩
  · rw [if_neg hpower] at h
    have hfiner : b.significand = 2 ^ 52 → b.exponent ≠ -1074 → 4 * center ≤ 4 * n + b.unit :=
      fun heq hne => absurd ⟨heq, hne⟩ hpower
    split at h
    · rename_i heven
      rw [beq_iff_eq] at heven
      rw [Bool.and_eq_true, decide_eq_true_eq, decide_eq_true_eq] at h
      exact ⟨by omega, hfiner, by omega, fun hodd => absurd hodd (by omega)⟩
    · rw [Bool.and_eq_true, decide_eq_true_eq, decide_eq_true_eq] at h
      exact ⟨by omega, hfiner, by omega, fun _ => by omega⟩

/-- **What lies in the interval of a double is rounded to it.**  Here the search for few digits
    meets the rounding to the nearest double. -/
theorem rounded_of_holds (hfits : Fits b.significand b.exponent) (hm : 0 < b.significand)
    (h : b.interval.holds n = true) :
    rounded (n * 10 ^ b.toDecimal.exponent) = b.significand * 2 ^ b.exponent := by
  obtain ⟨hlow, hfiner, hhigh, hodd⟩ := bounds_of_holds hm h
  -- over the power of ten of the exact decimal the bounds are those of the nearest double
  have hlow : (b.significand - 1 / 2 : ℚ) * b.unit ≤ n := by
    have hcast : (4 * (b.significand * b.unit) : ℚ) ≤ 4 * n + 2 * b.unit := by exact_mod_cast hlow
    linarith only [hcast]
  have hhigh : (n : ℚ) ≤ (b.significand + 1 / 2) * b.unit := by
    have hcast : (4 * n : ℚ) ≤ 4 * (b.significand * b.unit) + 2 * b.unit := by exact_mod_cast hhigh
    linarith only [hcast]
  refine hfits.rounded_eq_of_near hm ?_ (fun hpower hne => ?_) ?_ fun hodd' => ?_
  · rw [← unit_mul, ← mul_assoc]
    gcongr
  · have hcast : (4 * (b.significand * b.unit) : ℚ) ≤ 4 * n + b.unit := by
      exact_mod_cast hfiner hpower hne
    rw [← unit_mul, ← mul_assoc]
    gcongr
    linarith only [hcast]
  · rw [← unit_mul, ← mul_assoc]
    gcongr
  · obtain ⟨hbelow, habove⟩ := hodd hodd'
    have hbelow : (4 * (b.significand * b.unit) : ℚ) < 4 * n + 2 * b.unit := by
      exact_mod_cast hbelow
    have habove : (4 * n : ℚ) < 4 * (b.significand * b.unit) + 2 * b.unit := by
      exact_mod_cast habove
    rw [← unit_mul, ← mul_assoc, ← mul_assoc]
    constructor
    · gcongr
      linarith only [hbelow]
    · gcongr
      linarith only [habove]

/-! ## The search -/

namespace Interval

variable {i : Interval}

theorem onGrid?_holds {unit : ℕ} (h : i.onGrid? unit = some n) : i.holds (n * unit) = true := by
  unfold onGrid? at h
  dsimp only at h
  split at h
  · exact nomatch h
  · rename_i hlower _
    exact Option.some.inj h ▸ hlower
  · rename_i hupper
    exact Option.some.inj h ▸ hupper
  · -- where both points lie in the interval either choice does
    rename_i hlower hupper
    split_ifs at h <;> rw [← Option.some.inj h] <;> assumption

/-- Whichever grid the search stops at, the point `n * 10 ^ k` it has found is in the interval. -/
theorem coarsest?_holds {places k : ℕ} (h : i.coarsest? places = some (n, k)) :
    i.holds (n * 10 ^ k) = true := by
  induction places with
  | zero =>
    obtain ⟨m, hm, heq⟩ := Option.map_eq_some_iff.mp h
    obtain ⟨rfl, rfl⟩ := Prod.mk.injEq .. ▸ heq
    rw [pow_zero]
    exact onGrid?_holds hm
  | succ places ih =>
    unfold coarsest? at h
    split at h
    · rename_i m hm
      obtain ⟨rfl, rfl⟩ := Prod.mk.injEq .. ▸ Option.some.inj h
      exact onGrid?_holds hm
    · exact ih h

end Interval

/-- **The shortest decimal is rounded to the double it is made for**, so the text of a number reads
    back as that number. -/
theorem rounded_shortest (hfits : Fits b.significand b.exponent) (hm : 0 < b.significand) :
    rounded b.shortest.value = b.significand * 2 ^ b.exponent := by
  unfold shortest
  dsimp only
  split
  · rename_i n k hfound
    have hholds := Interval.coarsest?_holds hfound
    have hvalue : (⟨n, b.toDecimal.exponent + k⟩ : Decimal).value
        = (n * 10 ^ k : ℕ) * 10 ^ b.toDecimal.exponent := by
      unfold Decimal.value
      rw [zpow_add₀ (by norm_num), zpow_natCast]
      push_cast
      ring
    rw [Decimal.value_normalize, hvalue]
    exact rounded_of_holds hfits hm hholds
  · rw [Decimal.value_normalize, value_toDecimal]
    exact hfits.rounded_eq

end Binary

end SolidExport
