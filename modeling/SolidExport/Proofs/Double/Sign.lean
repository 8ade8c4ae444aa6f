/-
  Signs of doubles.

  A double other than zero is its magnitude or the negative of it, with the same significand and
  exponent.
-/
import SolidExport.Proofs.Double.Value

namespace SolidExport.Double

open Float.Model (UnpackedFloat)
open Float.Model.UnpackedFloat

variable {x y : Float} {m : ℕ} {e : ℤ} {hm : 0 < m}

theorem unpack_neg {s : Sign} (h : x.toModel.unpack = .finite s m e hm) :
    (-x).toModel.unpack = .finite (-s) m e hm := by
  obtain ⟨hfits, hmost⟩ := fits_of_unpack h
  have hneg : (-x).toModel.unpack = (Float.Model.pack x.toModel.unpack.neg).unpack := rfl
  rw [hneg, h]
  exact unpack_pack_of_fits hm hfits hmost

/-- What a double other than zero is unpacked to, from its exact form: this is the way back from
    `ofFloat?`. -/
theorem unpack_of_ofFloat? {b : Binary} (h : Binary.ofFloat? x = some b) (hm : 0 < b.significand) :
    x.toModel.unpack
      = .finite (if b.negative then .negative else .positive) b.significand b.exponent hm := by
  have hfinite : x.isFinite = true := by
    by_contra hne
    rw [ofFloat?_of_not_finite (Bool.eq_false_iff.mpr hne)] at h
    exact nomatch h
  rcases unpack_of_isFinite hfinite with ⟨s, hs⟩ | ⟨s, m, e, hm', hs⟩
  · obtain ⟨negative, k, hzero⟩ := ofFloat?_of_zero ⟨s, hs⟩
    rw [hzero, Option.some_inj] at h
    subst h
    exact absurd hm (lt_irrefl 0)
  · rw [ofFloat?_of_unpack hs, Option.some_inj] at h
    subst h
    rw [hs]
    cases s <;> rfl

/-- A value that is not zero determines what the double is unpacked to. -/
theorem HasValue.unpack_of_fits (h : HasValue x (m * 2 ^ e)) (hm : 0 < m) (hfits : Fits m e) :
    x.toModel.unpack = .finite .positive m e hm := by
  generalize hv : (m : ℚ) * 2 ^ e = v at h
  cases h with
  | zero h =>
    have hpos : (0 : ℚ) < m * 2 ^ e := by positivity
    exact absurd hv hpos.ne'
  | finite h =>
    obtain ⟨rfl, rfl⟩ := hfits.unique (fits_of_unpack h).1 hv
    exact h

/-- A double is determined by its sign and the value of its magnitude. -/
theorem HasValue.signed_eq {b : Binary} (hx : Binary.ofFloat? x = some b) (hm : 0 < b.significand)
    (hy : HasValue y (b.significand * 2 ^ b.exponent)) : (if b.negative then -y else y) = x := by
  obtain ⟨negative, m, e⟩ := b
  have hunpack := unpack_of_ofFloat? hx hm
  have hmagnitude := hy.unpack_of_fits hm (fits_of_unpack hunpack).1
  refine eq_of_ofFloat? ?_ hx
  cases negative with
  | false => exact ofFloat?_of_unpack hmagnitude
  | true => exact ofFloat?_of_unpack (unpack_neg hmagnitude)

/-- The magnitude of a double has the value that its exact form says, without the sign. -/
theorem hasValue_abs {b : Binary} (h : Binary.ofFloat? x = some b) (hm : 0 < b.significand) :
    HasValue x.abs (b.significand * 2 ^ b.exponent) := by
  have hunpack := unpack_of_ofFloat? h hm
  obtain ⟨hfits, hmost⟩ := fits_of_unpack hunpack
  have habs : x.abs.toModel.unpack = (Float.Model.pack x.toModel.unpack.abs).unpack := rfl
  refine @HasValue.finite _ _ _ hm ?_
  rw [habs, hunpack]
  exact unpack_pack_of_fits hm hfits hmost

/-- A double other than zero is below zero exactly if its exact form is negative. -/
theorem lt_zero_iff {b : Binary} (h : Binary.ofFloat? x = some b) (hm : 0 < b.significand) :
    x < 0.0 ↔ b.negative = true := by
  have hzero : (0.0 : Float).toModel.unpack = .zero .positive := rfl
  rw [Double.lt_iff, unpack_of_ofFloat? h hm, hzero]
  cases b.negative with
  | false => exact iff_of_false nofun Bool.false_ne_true
  | true => exact iff_of_true rfl rfl

namespace IsInfinite

theorem unpack_neg (h : IsInfinite x) : (-x).toModel.unpack = .infinity .negative := by
  have hneg : (-x).toModel.unpack = (Float.Model.pack x.toModel.unpack.neg).unpack := rfl
  rw [hneg, h]
  rfl

end IsInfinite

end SolidExport.Double
