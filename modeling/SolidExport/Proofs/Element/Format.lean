/-
  The texts of numbers that are rounded to significant digits.

  A finite number is rounded to a double again, and that may be an infinity: the check for finite
  numbers is made before.  It is one exactly from a bound on that depends on the number of digits
  (`Double.Overflows`), and nine of the seventeen possible numbers of digits have doubles at or above
  their bound (`exists_overflows_iff`).  Below it the text is read as a finite number
  (`numberText_roundSignificant`).
-/
import SolidExport.Proofs.Decimal.Significant
import SolidExport.Proofs.Decimal.Text
import SolidExport.Proofs.Element.Markup

namespace SolidExport

namespace Double

open Float.Model.UnpackedFloat (Sign)

variable {x : Float} {digits : ℕ}

/-! ## Rounding doubles -/

/-- `Overflows digits x` — the magnitude of the double `x` is rounded past the doubles with `digits`
    significant digits. -/
def Overflows (digits : ℕ) (x : Float) : Prop := ∃ v, HasValue x.abs v ∧ overflowBound digits ≤ v

theorem HasValue.unique {v w : ℚ} (hv : HasValue x v) (hw : HasValue x w) : v = w :=
  le_antisymm ((hv.le_iff hw).mp ((hv.le_iff hv).mpr le_rfl))
    ((hw.le_iff hv).mp ((hw.le_iff hw).mpr le_rfl))

/-- The double nearest to `v` is finite exactly if `v` is below the point halfway past the range,
    and else the positive infinity. -/
theorem Rounds.cases {v : ℚ} (hv : 0 ≤ v) (h : Rounds x v) :
    (v < halfway ∧ x.isFinite = true) ∨ (halfway ≤ v ∧ IsInfinite x) := by
  rw [cast_halfway]
  rcases h with ⟨hvalue, hlt⟩ | ⟨hinfinite, hge⟩
  · exact Or.inl ⟨not_le.mp fun hle => hlt.not_ge ((range_le_rounded_iff hv).mpr hle), hvalue.isFinite⟩
  · exact Or.inr ⟨(range_le_rounded_iff hv).mp hge, hinfinite⟩

theorem isFinite_neg (h : x.isFinite = true) : (-x).isFinite = true := by
  rw [isFinite_eq]
  rcases unpack_of_isFinite h with ⟨s, hs⟩ | ⟨s, m, e, hm, hs⟩
  · have hneg : (-x).toModel.unpack = (Float.Model.pack x.toModel.unpack.neg).unpack := rfl
    rw [hneg, hs]
    exact congrArg _ (unpack_pack_zero (-s))
  · rw [unpack_neg hs]
    rfl

theorem not_overflows_zero (hone : 1 ≤ digits) (h : IsZero x) : ¬ Overflows digits x := by
  rintro ⟨v, hv, hbound⟩
  obtain ⟨w, hw, hzero⟩ := exists_value_abs h.isFinite
  rw [hv.unique hw, hzero.mpr h] at hbound
  have hpos : (0 : ℚ) < 10 ^ 308 := by positivity
  exact absurd ((ten_pow_le_overflowBound hone).trans hbound) hpos.not_ge

/-- A double other than zero is rounded as its magnitude is, and keeps its sign. -/
theorem roundSignificant_eq {b : Binary} (hb : Binary.ofFloat? x = some b) (hm : 0 < b.significand) :
    roundSignificant digits x = if b.negative then -(b.toDecimal.roundTo digits).toFloat
      else (b.toDecimal.roundTo digits).toFloat := by
  unfold roundSignificant
  rw [hb]
  exact if_neg hm.ne'

/-- A double other than zero overflows exactly if its exact decimal, rounded to `digits` digits, is
    past the doubles.  Both sides are numbers that can be compared with the bound. -/
theorem overflows_iff {b : Binary} (hb : Binary.ofFloat? x = some b) (hm : 0 < b.significand)
    (hone : 1 ≤ digits) (hmost : digits < 309) :
    Overflows digits x ↔ halfway ≤ (b.toDecimal.roundTo digits).value := by
  have habs := hasValue_abs hb hm
  have hvalue := b.value_toDecimal
  have hrange : b.toDecimal.value < 10 ^ 309 := by
    rw [hvalue]
    exact habs.lt_range.trans (by exact_mod_cast two_pow_lt)
  rw [Decimal.past_roundTo_iff b.exponent_toDecimal hone hmost hrange, hvalue]
  constructor
  · rintro ⟨v, hv, hbound⟩
    rwa [← habs.unique hv] at hbound
  · exact fun hbound => ⟨_, habs, hbound⟩

/-- **Where a rounded double is infinite.**  A finite double `x` becomes the infinity of its sign if
    it overflows, and stays finite else. -/
theorem roundSignificant_cases (hx : x.isFinite = true) (hone : 1 ≤ digits) (hmost : digits < 309) :
    (Overflows digits x ∧ (roundSignificant digits x).toModel.unpack
      = .infinity (if x < 0.0 then .negative else .positive)) ∨
    (¬ Overflows digits x ∧ (roundSignificant digits x).isFinite = true) := by
  rcases unpack_of_isFinite hx with ⟨s, hs⟩ | ⟨s, m, e, hm, hs⟩
  · right
    obtain ⟨negative, k, hzero⟩ := ofFloat?_of_zero ⟨s, hs⟩
    refine ⟨not_overflows_zero hone ⟨s, hs⟩, ?_⟩
    unfold roundSignificant
    rw [hzero]
    dsimp only
    rw [if_pos rfl]
    rfl
  · have hb := ofFloat?_of_unpack hs
    have hm' : 0 < (⟨s == .negative, m, e⟩ : Binary).significand := hm
    generalize (⟨s == .negative, m, e⟩ : Binary) = b at hb hm'
    rw [overflows_iff hb hm' hone hmost, roundSignificant_eq hb hm']
    have hsign := lt_zero_iff hb hm'
    have hnonneg : 0 ≤ (b.toDecimal.roundTo digits).value := by
      unfold Decimal.value
      positivity
    rcases (rounds_toFloat (b.toDecimal.roundTo digits)).cases hnonneg with
      ⟨hlt, hfinite⟩ | ⟨hge, hinfinite⟩
    · refine Or.inr ⟨not_le.mpr hlt, ?_⟩
      split_ifs
      · exact isFinite_neg hfinite
      · exact hfinite
    · refine Or.inl ⟨hge, ?_⟩
      by_cases hnegative : b.negative = true
      · rw [if_pos hnegative, if_pos (hsign.mpr hnegative)]
        exact hinfinite.unpack_neg
      · rw [if_neg hnegative, if_neg fun h => hnegative (hsign.mp h)]
        exact hinfinite

/-! ## The doubles that overflow -/

/-- The greatest double. -/
def greatest : Float := 1.7976931348623157e308

theorem ofFloat?_greatest : Binary.ofFloat? greatest = some ⟨false, 2 ^ 53 - 1, 971⟩ := by
  decide +kernel

theorem isFinite_greatest : greatest.isFinite = true :=
  (hasValue_of_ofFloat? ofFloat?_greatest).isFinite

theorem hasValue_greatest : HasValue greatest.abs (2 ^ 1024 - 2 ^ 971) := by
  rw [← greatest_eq]
  exact hasValue_abs ofFloat?_greatest (by decide)

/-- No double with a value is above the greatest, a unit of the last place below `2 ^ 1024`. -/
theorem HasValue.le_greatest {v : ℚ} (h : HasValue x v) : v ≤ 2 ^ 1024 - 2 ^ 971 := by
  have hrounded := h.rounded_eq
  have hbelow : v < 2 ^ 1024 - 2 ^ 970 := by
    by_contra hle
    have hpast := (range_le_rounded_iff h.nonneg).mpr (not_lt.mp hle)
    rw [hrounded] at hpast
    exact absurd h.lt_range hpast.not_gt
  have hle := rounded_le_greatest h.nonneg hbelow
  rwa [hrounded] at hle

/-- The numbers of digits whose bound is not past the greatest double.  They follow the digits of
    the greatest double: where the next digit is five or more, rounding goes up. -/
theorem overflowBound_le_iff {digits : ℕ} (hone : 1 ≤ digits) (hmost : digits ≤ 17) :
    overflowBound digits ≤ 2 ^ 1024 - 2 ^ 971 ↔ digits ∈ [1, 2, 3, 4, 5, 10, 11, 15, 16] := by
  have hall : ∀ k < 18, 1 ≤ k → (2 * firstPast k * 10 ^ (309 - k)
      ≤ 2 * (2 ^ 1024 - 2 ^ 971) + 10 ^ (309 - k) ↔ k ∈ [1, 2, 3, 4, 5, 10, 11, 15, 16]) := by
    decide +kernel
  rw [← hall digits (by omega) hone, ← Nat.cast_le (α := ℚ), ← cast_two_pow_sub (by decide)]
  generalize 2 ^ 1024 - 2 ^ 971 = last
  unfold overflowBound
  push_cast
  constructor
  · intro h
    linarith only [h]
  · intro h
    linarith only [h]

/-- **The numbers of digits at which a double overflows.**  With any other number of them every
    finite double has a text. -/
theorem exists_overflows_iff {digits : ℕ} (hone : 1 ≤ digits) (hmost : digits ≤ 17) :
    (∃ x : Float, x.isFinite = true ∧ Overflows digits x) ↔
      digits ∈ [1, 2, 3, 4, 5, 10, 11, 15, 16] := by
  rw [← overflowBound_le_iff hone hmost]
  constructor
  · rintro ⟨x, -, v, hv, hbound⟩
    exact hbound.trans hv.le_greatest
  · exact fun hbound => ⟨greatest, isFinite_greatest, _, hasValue_greatest, hbound⟩

end Double

/-! ## Texts -/

/-- The digits `k` that a precision stands for: it is the double of a whole number from one to
    seventeen. -/
theorem precisionDigits?_eq_some_iff {precision : Float} {k : ℕ} :
    precisionDigits? precision = some k ↔ 1 ≤ k ∧ k ≤ 17 ∧ precision = Float.ofNat k := by
  have hall : ∀ k < 18, 1 ≤ k → precisionDigits? (Float.ofNat k) = some k := by
    decide
  constructor
  · intro h
    obtain ⟨j, hone, hmost, rfl⟩ := precisionDigits?_isSome_iff.mp (Option.isSome_of_eq_some h)
    rw [hall j (by omega) hone] at h
    obtain rfl := Option.some.inj h
    exact ⟨hone, hmost, rfl⟩
  · rintro ⟨hone, hmost, rfl⟩
    exact hall k (by omega) hone

/-- The text that is written for a number, and that there is one for a finite number and a possible
    precision only. -/
theorem formatNumber_eq_ok_iff {precision x : Float} {text : String} :
    formatNumber precision x = .ok text ↔ x.isFinite = true ∧
      ∃ k, precisionDigits? precision = some k ∧ numberText (Double.roundSignificant k x) = text := by
  unfold formatNumber
  cases hx : x.isFinite with
  | false => exact iff_of_false nofun fun h => nomatch h.1
  | true =>
    cases hdigits : precisionDigits? precision with
    | none => exact iff_of_false nofun fun ⟨_, _, h, _⟩ => nomatch h
    | some k =>
      constructor
      · intro h
        exact ⟨rfl, k, rfl, Except.ok.inj h⟩
      · rintro ⟨-, j, hj, rfl⟩
        obtain rfl := Option.some.inj hj
        rfl

open Double (Overflows)

/-- **The text of a rounded number** names an infinity if the number overflows, and a finite number if
    it does not. -/
theorem numberText_roundSignificant {x : Float} {k : ℕ} (hx : x.isFinite = true) (hone : 1 ≤ k)
    (hmost : k ≤ 17) :
    (Overflows k x → numberText (Double.roundSignificant k x)
      = if x < 0.0 then "-Infinity" else "Infinity") ∧
    (¬ Overflows k x → ∃ y, readNumber? (numberText (Double.roundSignificant k x)) = some y ∧
      y.isFinite = true) := by
  rcases Double.roundSignificant_cases hx hone (by omega) with ⟨hover, hinfinite⟩ | ⟨hnot, hfinite⟩
  · refine ⟨fun _ => ?_, fun hnot => absurd hover hnot⟩
    by_cases hnegative : x < 0.0
    · rw [if_pos hnegative] at hinfinite
      rw [numberText_infinity hinfinite, if_pos hnegative]
      rfl
    · rw [if_neg hnegative] at hinfinite
      rw [numberText_infinity hinfinite, if_neg hnegative]
      rfl
  · exact ⟨fun hover => absurd hover hnot, fun _ => exists_readNumber?_numberText hfinite⟩

end SolidExport
