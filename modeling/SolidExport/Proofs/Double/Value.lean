/-
  The exact values of doubles that are not negative.

  A double that is neither negative nor infinite is a significand times a power of two, so it has an
  exact rational value (`HasValue`).  The significand is full unless the exponent is the least one
  (`Fits`), which is why doubles are compared as their values are (`HasValue.le_iff`).  The integer
  roundings are those of the values (`HasValue.trunc`, `HasValue.ceil`), and a double is a natural
  number if its value is (`toNat?_eq_some_iff`).
-/
import Mathlib.Algebra.Order.Field.Power
import Mathlib.Data.Rat.Floor
import Mathlib.Tactic.Linarith
import SolidExport.Proofs.Double.Order

namespace SolidExport.Double

open Float.Model (Format totalExponent UnpackedFloat)
open Float.Model.UnpackedFloat

/-! ## Significands and exponents -/

/-- `Fits m e` — a significand `m` and an exponent `e` that a double may have, were there no
    greatest exponent.  Each value has one such pair only. -/
structure Fits (m : Nat) (e : Int) : Prop where
  short : m < 2 ^ 53
  least : -1074 ≤ e
  full : 2 ^ 52 ≤ m ∨ e = -1074

theorem fits_of_unpack {x : Float} {s : Sign} {m : Nat} {e : Int} {hm : 0 < m}
    (h : x.toModel.unpack = .finite s m e hm) : Fits m e ∧ e ≤ 971 := by
  obtain ⟨hshort, hleast, hmost⟩ := unpack_bounds h
  obtain ⟨negative, hvalue⟩ := ofFloat?_of_finite h
  have hfull := significand_bounds hvalue
  dsimp only at hfull
  exact ⟨⟨hshort, hleast, by omega⟩, hmost⟩

/-- Of two numbers that fit, the one with the greater exponent is greater: its significand is
    full. -/
theorem Fits.lt_of_exponent_lt {m m' : Nat} {e e' : Int} (h : Fits m e) (h' : Fits m' e')
    (he : e < e') : (m : ℚ) * 2 ^ e < m' * 2 ^ e' := by
  have hfull : 2 ^ 52 ≤ m' := h'.full.resolve_right (by have := h.least; omega)
  have hm : (m : ℚ) < 2 ^ 53 := by exact_mod_cast h.short
  have hm' : (2 : ℚ) ^ 52 ≤ m' := by exact_mod_cast hfull
  calc (m : ℚ) * 2 ^ e < 2 ^ 53 * 2 ^ e := by gcongr
    _ = 2 ^ 52 * 2 ^ (e + 1) := by rw [zpow_add_one₀ (by norm_num)]; ring
    _ ≤ 2 ^ 52 * 2 ^ e' := by gcongr <;> [norm_num; omega]
    _ ≤ m' * 2 ^ e' := by gcongr

/-- A number that fits does so in one way, with one significand and one exponent. -/
theorem Fits.unique {m m' : Nat} {e e' : Int} (h : Fits m e) (h' : Fits m' e')
    (hvalue : (m : ℚ) * 2 ^ e = m' * 2 ^ e') : m = m' ∧ e = e' := by
  have he : e = e' := by
    rcases lt_trichotomy e e' with hlt | heq | hgt
    · exact absurd hvalue (h.lt_of_exponent_lt h' hlt).ne
    · exact heq
    · exact absurd hvalue (h'.lt_of_exponent_lt h hgt).ne'
  subst he
  exact ⟨by exact_mod_cast mul_right_cancel₀ (by positivity) hvalue, rfl⟩

/-- Between the neighbours `n` and `n + 1` of one exponent nothing fits. -/
theorem Fits.le_of_lt_succ {m n : Nat} {e k : Int} (h : Fits m e) (hn : Fits n k)
    (hn' : Fits (n + 1) k) (hlt : (m : ℚ) * 2 ^ e < (n + 1 : Nat) * 2 ^ k) :
    (m : ℚ) * 2 ^ e ≤ n * 2 ^ k := by
  rcases lt_trichotomy e k with he | rfl | he
  · exact (h.lt_of_exponent_lt hn he).le
  · rw [mul_lt_mul_iff_left₀ (by positivity), Nat.cast_lt] at hlt
    gcongr
    omega
  · exact absurd hlt (hn'.lt_of_exponent_lt h he).not_gt

/-- A significand of fewer than fifty-three bits survives packing at the least exponent. -/
theorem unpack_pack_subnormal {s : Sign} {m : Nat} (hm : 0 < m) (h52 : m < 2 ^ 52) :
    (Float.Model.pack (.finite s m (-1074) hm)).unpack = .finite s m (-1074) hm := by
  have hlog : m.log2 < 52 := (Nat.log2_lt (Nat.ne_of_gt hm)).mpr h52
  have hfield : (BitVec.ofNat 52 m).toNat = m := by
    rw [BitVec.toNat_ofNat, Nat.mod_eq_of_lt h52]
  have hne : BitVec.ofNat 52 m ≠ 0#52 := by
    intro h
    have h0 : m = 0 := by
      rw [← hfield, h]
      rfl
    omega
  have hpack : UnpackedFloat.pack Format.binary64 (.finite s m (-1074) hm) =
      packComponents Format.binary64 s 0#11 (BitVec.ofNat 52 m) := by
    unfold UnpackedFloat.pack
    rw [if_neg (show ¬ 2 ^ Format.binary64.exponentBits
      ≤ (-1074 + (Format.binary64.exponentBias : Int)
        + (Format.binary64.mantissaBitsWithoutImplicit : Int)).toNat + 1 by decide)]
    exact if_neg (show ¬ m.log2 + 1 = 53 by omega)
  show UnpackedFloat.unpack Format.binary64
    (UnpackedFloat.pack Format.binary64 (.finite s m (-1074) hm)) = _
  rw [hpack]
  have hunpacks := unpacks (packComponents Format.binary64 s 0#11 (BitVec.ofNat 52 m))
  generalize UnpackedFloat.unpack Format.binary64 _ = u at hunpacks ⊢
  cases hunpacks with
  | infinity _ hones => exact absurd (unpackExponent_packComponents.symm.trans hones) (by decide)
  | notANumber hones => exact absurd (unpackExponent_packComponents.symm.trans hones) (by decide)
  | zero _ hfraction => exact absurd (unpackMantissa_packComponents.symm.trans hfraction) hne
  | normal _ hzeros => exact absurd unpackExponent_packComponents hzeros
  | subnormal =>
    rw [UnpackedFloat.finite.injEq]
    refine ⟨unpackSign_packComponents _ _ _, ?_, rfl⟩
    rw [unpackMantissa_packComponents]
    exact hfield

/-- What fits, and has no exponent above the greatest, survives packing. -/
theorem unpack_pack_of_fits {s : Sign} {m : Nat} {e : Int} (hm : 0 < m) (h : Fits m e)
    (he : e ≤ 971) : (Float.Model.pack (.finite s m e hm)).unpack = .finite s m e hm := by
  by_cases hfull : 2 ^ 52 ≤ m
  · have hlog : m.log2 = 52 := (Nat.log2_eq_iff (Nat.ne_of_gt hm)).mpr ⟨hfull, h.short⟩
    exact unpack_pack_normal hm hlog h.least he
  · obtain rfl : e = -1074 := h.full.resolve_left hfull
    exact unpack_pack_subnormal hm (Nat.lt_of_not_le hfull)

/-- What has an exponent above the greatest is packed as an infinity. -/
theorem unpack_pack_overflow {s : Sign} {m : Nat} {e : Int} (hm : 0 < m) (he : 971 < e) :
    (Float.Model.pack (.finite s m e hm)).unpack = .infinity s := by
  show UnpackedFloat.unpack Format.binary64
    (UnpackedFloat.pack Format.binary64 (.finite s m e hm)) = _
  unfold UnpackedFloat.pack
  rw [if_pos (show 2 ^ Format.binary64.exponentBits
      ≤ (e + (Format.binary64.exponentBias : Int)
        + (Format.binary64.mantissaBitsWithoutImplicit : Int)).toNat + 1 by
    show 2048 ≤ (e + 1023 + 52).toNat + 1
    omega)]
  cases s <;> rfl

/-! ## Values -/

/-- `HasValue x v` — the double `x` is neither negative nor infinite, and `v` is its exact value.
    Negative zero is zero. -/
inductive HasValue (x : Float) : ℚ → Prop where
  | zero {s : Sign} (h : x.toModel.unpack = .zero s) : HasValue x 0
  | finite {m : Nat} {e : Int} {hm : 0 < m} (h : x.toModel.unpack = .finite .positive m e hm) :
      HasValue x (m * 2 ^ e)

/-- `IsInfinite x` — the double `x` is the infinity above all others. -/
def IsInfinite (x : Float) : Prop := x.toModel.unpack = .infinity .positive

section

variable {x y : Float} {v w : ℚ}

namespace HasValue

theorem nonneg (h : HasValue x v) : 0 ≤ v := by
  cases h with
  | zero h => exact le_rfl
  | finite h => positivity

theorem isFinite (h : HasValue x v) : x.isFinite = true := by
  rw [isFinite_eq]
  cases h with
  | zero h => rw [h]; rfl
  | finite h => rw [h]; rfl

/-- **Doubles are compared as their values are.**  So statements about doubles can be proved with
    rationals. -/
theorem le_iff (hx : HasValue x v) (hy : HasValue y w) : x ≤ y ↔ v ≤ w := by
  rw [Double.le_iff]
  cases hx with
  | zero hx =>
    rw [hx]
    refine iff_of_true ?_ hy.nonneg
    cases hy with
    | zero hy => rw [hy]; rfl
    | finite hy => rw [hy]; rfl
  | @finite m e hm hx =>
    cases hy with
    | zero hy =>
      rw [hx, hy]
      have hpos : (0 : ℚ) < m * 2 ^ e := by positivity
      exact iff_of_false nofun (not_le.mpr hpos)
    | @finite m' e' hm' hy =>
      obtain ⟨hfits, -⟩ := fits_of_unpack hx
      obtain ⟨hfits', -⟩ := fits_of_unpack hy
      rw [hx, hy]
      show ((compare e e').then (compare m m')).isLE = true ↔ _
      -- the exponents decide, and the significands if the exponents are one
      rcases lt_trichotomy e e' with he | rfl | he
      · rw [Int.compare_eq_lt.mpr he]
        exact iff_of_true rfl (hfits.lt_of_exponent_lt hfits' he).le
      · rw [Int.compare_eq_eq.mpr rfl, mul_le_mul_iff_left₀ (by positivity), Nat.cast_le]
        exact Nat.isLE_compare
      · rw [Int.compare_eq_gt.mpr he]
        exact iff_of_false nofun (not_le.mpr (hfits'.lt_of_exponent_lt hfits he))

end HasValue

/-- Of two numbers that are no NaN, one is below the other exactly if the other is not at most
    it. -/
theorem lt_iff_not_le (hx : x.isNaN = false) (hy : y.isNaN = false) : x < y ↔ ¬ y ≤ x := by
  refine ⟨fun hlt hle => ?_, lt_of_not_le hx hy⟩
  rw [Double.lt_iff] at hlt
  rw [Double.le_iff, compare_swap x.toModel.unpack, hlt] at hle
  exact nomatch hle

theorem le_of_lt (h : x < y) : x ≤ y := by
  rw [Double.lt_iff] at h
  rw [Double.le_iff, h]
  rfl

theorem isNaN_of_isFinite (h : x.isFinite = true) : x.isNaN = false := by
  rw [isNaN_eq]
  rcases unpack_of_isFinite h with ⟨s, hs⟩ | ⟨s, m, e, hm, hs⟩
  · rw [hs]
    rfl
  · rw [hs]
    rfl

theorem HasValue.isNaN (h : HasValue x v) : x.isNaN = false := isNaN_of_isFinite h.isFinite

theorem HasValue.lt_iff (hx : HasValue x v) (hy : HasValue y w) : x < y ↔ v < w := by
  rw [lt_iff_not_le hx.isNaN hy.isNaN, hy.le_iff hx, not_le]

/-- Between two neighbours there is no double: a value below the upper one is at most the lower
    one. -/
theorem HasValue.le_of_lt_succ (h : HasValue x v) {n : Nat} {k : Int} (hn : Fits n k)
    (hn' : Fits (n + 1) k) (hlt : v < (n + 1 : Nat) * 2 ^ k) : v ≤ n * 2 ^ k := by
  cases h with
  | zero h => positivity
  | finite h => exact (fits_of_unpack h).1.le_of_lt_succ hn hn' hlt

theorem hasValue_zero : HasValue 0.0 0 := .zero (s := .positive) rfl

namespace IsInfinite

theorem isNaN (h : IsInfinite x) : x.isNaN = false := by
  rw [isNaN_eq, h]
  rfl

theorem isFinite (h : IsInfinite x) : x.isFinite = false := by
  rw [isFinite_eq, h]
  rfl

theorem le (hy : IsInfinite y) (hx : x.isNaN = false) : x ≤ y := by
  rw [isNaN_eq] at hx
  rw [Double.le_iff, hy]
  cases hu : x.toModel.unpack with
  | notANumber => rw [hu] at hx; exact nomatch hx
  | infinity s => cases s <;> rfl
  | zero s => rfl
  | finite s m e hm => cases s <;> rfl

/-- An infinity over a positive number is infinite. -/
theorem div (hx : IsInfinite x) (hy : HasValue y w) (hw : 0 < w) : IsInfinite (x / y) := by
  cases hy with
  | zero hy => exact absurd hw (lt_irrefl 0)
  | finite hy =>
    show (Float.Model.pack (UnpackedFloat.div Format.binary64 x.toModel.unpack
      y.toModel.unpack)).unpack = _
    rw [hx, hy]
    show (Float.Model.pack (.infinity (.positive / .positive))).unpack = _
    rfl

/-- An infinity has no fraction, so rounding it up leaves it. -/
theorem ceil_eq (hx : IsInfinite x) : ceil x = x := by
  unfold ceil
  rw [ofFloat?_of_not_finite hx.isFinite]

end IsInfinite

/-- What is not negative has a value or is infinite; a NaN is not even at least zero. -/
theorem value_or_infinite (hx : 0.0 ≤ x) : (∃ v, HasValue x v) ∨ IsInfinite x := by
  have hzero : (0.0 : Float).toModel.unpack = .zero .positive := rfl
  rw [Double.le_iff, hzero] at hx
  cases hu : x.toModel.unpack with
  | notANumber => rw [hu] at hx; exact nomatch hx
  | zero s => exact Or.inl ⟨0, .zero hu⟩
  | infinity s =>
    cases s with
    | positive => exact Or.inr hu
    | negative => rw [hu] at hx; exact nomatch hx
  | finite s m e hm =>
    cases s with
    | positive => exact Or.inl ⟨_, .finite hu⟩
    | negative => rw [hu] at hx; exact nomatch hx

/-- What is finite and not below a double with a value has a value too. -/
theorem HasValue.exists_of_le (hx : HasValue x v) (hle : x ≤ y) (hy : y.isFinite = true) :
    ∃ w, HasValue y w := by
  rcases unpack_of_isFinite hy with ⟨s, hs⟩ | ⟨s, m, e, hm, hs⟩
  · exact ⟨0, .zero hs⟩
  · cases s with
    | positive => exact ⟨_, .finite hs⟩
    | negative =>
      rw [Double.le_iff, hs] at hle
      cases hx with
      | zero hx => rw [hx] at hle; exact nomatch hle
      | finite hx => rw [hx] at hle; exact nomatch hle

/-- The magnitude of a finite double has a value, which is zero for the two zeros only. -/
theorem exists_value_abs (h : x.isFinite = true) :
    ∃ v, HasValue x.abs v ∧ (v = 0 ↔ IsZero x) := by
  have habs : x.abs.toModel.unpack = (Float.Model.pack x.toModel.unpack.abs).unpack := rfl
  rcases unpack_of_isFinite h with ⟨s, hs⟩ | ⟨s, m, e, hm, hs⟩
  · refine ⟨0, .zero (s := .positive) ?_, iff_of_true rfl ⟨s, hs⟩⟩
    rw [habs, hs]
    exact unpack_pack_zero .positive
  · obtain ⟨hfits, hmost⟩ := fits_of_unpack hs
    have hpos : (0 : ℚ) < m * 2 ^ e := by positivity
    refine ⟨m * 2 ^ e, @HasValue.finite _ m e hm ?_, iff_of_false hpos.ne' ?_⟩
    · rw [habs, hs]
      exact unpack_pack_of_fits hm hfits hmost
    · rintro ⟨t, ht⟩
      rw [hs] at ht
      exact nomatch ht

/-! ## The sign of a double -/

theorem sign_unpackSign (b : BitVec Format.binary64.numBits) :
    Sign.ofBitVec (unpackSign b) = if b.toNat / 2 ^ 63 = 1 then .negative else .positive := by
  have hbit : (@unpackSign Format.binary64 b).toNat = b.toNat / 2 ^ 63 := by
    show (b.extractLsb' 63 1).toNat = _
    have hlt : b.toNat < 2 ^ 64 := b.isLt
    rw [BitVec.extractLsb'_toNat, Nat.shiftRight_eq_div_pow]
    omega
  unfold Sign.ofBitVec
  by_cases h : b.toNat / 2 ^ 63 = 1
  · rw [if_pos h, if_neg]
    intro h0
    rw [h0] at hbit
    exact absurd (hbit.trans h) (by decide)
  · have hlt : b.toNat < 2 ^ 64 := b.isLt
    rw [if_neg h, if_pos]
    apply BitVec.eq_of_toNat_eq
    rw [hbit]
    show b.toNat / 2 ^ 63 = 0
    omega

/-- A double that unpacks to a sign, a significand and an exponent has them as its exact value. -/
theorem ofFloat?_of_unpack {s : Sign} {m : Nat} {e : Int} {hm : 0 < m}
    (h : x.toModel.unpack = .finite s m e hm) :
    Binary.ofFloat? x = some ⟨s == .negative, m, e⟩ := by
  obtain ⟨negative, hvalue⟩ := ofFloat?_of_finite h
  have hs : s = if x.toModel.toBits.toBitVec.toNat / 2 ^ 63 = 1 then .negative else .positive := by
    rw [← sign_unpackSign]
    have hunpacks := unpacks x.toModel.toBits.toBitVec
    rw [show UnpackedFloat.unpack Format.binary64 x.toModel.toBits.toBitVec = .finite s m e hm from h]
      at hunpacks
    cases hunpacks with
    | subnormal => rfl
    | normal => rfl
  have hnegative : negative = (x.toModel.toBits.toBitVec.toNat / 2 ^ 63 == 1) := by
    rw [ofFloat?_eq] at hvalue
    simp only at hvalue
    split at hvalue
    · exact nomatch hvalue
    · split at hvalue
      · injection hvalue with hvalue
        injection hvalue with hn
        exact hn.symm
      · injection hvalue with hvalue
        injection hvalue with hn
        exact hn.symm
  rw [hvalue, hnegative, hs]
  by_cases hbit : x.toModel.toBits.toBitVec.toNat / 2 ^ 63 = 1
  · rw [if_pos hbit, hbit]
    rfl
  · rw [if_neg hbit, beq_eq_false_iff_ne.mpr hbit]
    rfl

/-- Doubles that share a value are the same, unless it is zero. -/
theorem HasValue.eq (hx : HasValue x v) (hy : HasValue y v) (hv : 0 < v) : x = y := by
  cases hx with
  | zero hx => exact absurd hv (lt_irrefl 0)
  | @finite m e hm hx =>
    generalize hvalue : (m : ℚ) * 2 ^ e = v at hy hv
    cases hy with
    | zero hy => exact absurd hv (lt_irrefl 0)
    | finite hy =>
      obtain ⟨rfl, rfl⟩ := (fits_of_unpack hx).1.unique (fits_of_unpack hy).1 hvalue
      exact eq_of_ofFloat? (ofFloat?_of_unpack hx) (ofFloat?_of_unpack hy)

/-! ## Whole numbers -/

/-- The exact form of a double with a value: it is not negative, or it is zero, and has that
    value. -/
theorem HasValue.ofFloat? (h : HasValue x v) : ∃ b, Binary.ofFloat? x = some b ∧
    (b.negative && b.significand != 0) = false ∧ v = b.significand * 2 ^ b.exponent := by
  cases h with
  | zero h =>
    obtain ⟨negative, e, hb⟩ := ofFloat?_of_zero ⟨_, h⟩
    refine ⟨_, hb, Bool.and_false _, ?_⟩
    rw [Nat.cast_zero, zero_mul]
  | finite h => exact ⟨_, ofFloat?_of_unpack h, rfl, rfl⟩

/-- A double whose exact form is not negative has that value. -/
theorem hasValue_of_ofFloat? {m : Nat} {e : Int} (h : Binary.ofFloat? x = some ⟨false, m, e⟩) :
    HasValue x (m * 2 ^ e) := by
  have hfinite : x.isFinite = true := by
    by_contra hne
    rw [ofFloat?_of_not_finite (Bool.eq_false_iff.mpr hne)] at h
    exact nomatch h
  rcases unpack_of_isFinite hfinite with ⟨s, hs⟩ | ⟨s, m', e', hm', hs⟩
  · obtain ⟨negative, k, hzero⟩ := ofFloat?_of_zero ⟨s, hs⟩
    rw [hzero, Option.some_inj, Binary.mk.injEq] at h
    obtain ⟨-, rfl, -⟩ := h
    rw [Nat.cast_zero, zero_mul]
    exact .zero hs
  · rw [ofFloat?_of_unpack hs, Option.some_inj, Binary.mk.injEq] at h
    obtain ⟨hsign, rfl, rfl⟩ := h
    cases s with
    | positive => exact .finite hs
    | negative => exact nomatch hsign

/-- The natural number that a double with a value is, if its value is one. -/
theorem HasValue.toNat?_eq_some (h : HasValue x v) {n : Nat} : toNat? x = some n ↔ v = n := by
  obtain ⟨⟨negative, m, e⟩, hb, hsign, rfl⟩ := h.ofFloat?
  unfold toNat?
  rw [hb]
  simp only [hsign]
  rw [if_neg Bool.false_ne_true]
  cases e with
  | ofNat k =>
    show some (m * 2 ^ k) = some n ↔ (m : ℚ) * 2 ^ (k : ℤ) = n
    rw [Option.some_inj, zpow_natCast]
    exact_mod_cast Iff.rfl
  | negSucc k =>
    have hunit : (0 : ℚ) < 2 ^ (k + 1) := by positivity
    have hscaled : (m : ℚ) * 2 ^ Int.negSucc k = n ↔ m = n * 2 ^ (k + 1) := by
      rw [zpow_negSucc, ← div_eq_mul_inv, div_eq_iff hunit.ne']
      exact_mod_cast Iff.rfl
    rw [hscaled]
    show (if m % 2 ^ (k + 1) = 0 then some (m / 2 ^ (k + 1)) else none) = some n ↔ _
    split
    · rename_i hwhole
      rw [Option.some_inj, Nat.div_eq_iff_eq_mul_left (Nat.two_pow_pos _)
        (Nat.dvd_of_mod_eq_zero hwhole)]
    · rename_i hfraction
      refine iff_of_false nofun ?_
      rintro rfl
      exact hfraction (Nat.mul_mod_left _ _)

/-- **A double is a natural number if its value is.**  Both say that it is not negative. -/
theorem toNat?_eq_some_iff {n : Nat} : toNat? x = some n ↔ HasValue x n := by
  refine ⟨fun h => ?_, fun h => h.toNat?_eq_some.mpr rfl⟩
  -- what has no value is negative, or not finite
  have hvalue : ∃ v, HasValue x v := by
    cases hfinite : x.isFinite with
    | false =>
      unfold toNat? at h
      rw [ofFloat?_of_not_finite hfinite] at h
      cases h
    | true =>
      rcases unpack_of_isFinite hfinite with ⟨s, hs⟩ | ⟨s, m, e, hm, hs⟩
      · exact ⟨0, .zero hs⟩
      · cases s with
        | positive => exact ⟨_, .finite hs⟩
        | negative =>
          unfold toNat? at h
          rw [ofFloat?_of_unpack hs] at h
          have hne : (m != 0) = true := bne_iff_ne.mpr hm.ne'
          simp only [hne] at h
          cases h
  obtain ⟨v, hv⟩ := hvalue
  rw [← hv.toNat?_eq_some.mp h]
  exact hv

/-- A double with a value and without a fraction is some natural number. -/
theorem HasValue.exists_toNat? (h : HasValue x v) (hwhole : isInteger x = true) :
    ∃ n, toNat? x = some n := by
  obtain ⟨⟨negative, m, e⟩, hb, hsign, -⟩ := h.ofFloat?
  unfold isInteger at hwhole
  unfold toNat?
  rw [hb] at hwhole ⊢
  simp only [hsign]
  cases e with
  | ofNat k => exact ⟨_, rfl⟩
  | negSucc k => exact ⟨_, if_pos (beq_iff_eq.mp hwhole)⟩

/-- Natural numbers up to `2 ^ 53` are doubles.  The last of them has a bit more, but it is a power
    of two. -/
theorem hasValue_ofNat {n : Nat} (h53 : n ≤ 2 ^ 53) : HasValue (Float.ofNat n) n := by
  rcases h53.eq_or_lt with rfl | h53
  · have hlast : (Float.ofNat (2 ^ 53)).toModel.unpack = .finite .positive (2 ^ 52) 1 (by decide) :=
      rfl
    have hvalue : ((2 ^ 52 : Nat) : ℚ) * 2 ^ (1 : Int) = (2 ^ 53 : Nat) := by norm_num
    exact hvalue ▸ .finite hlast
  · rcases Nat.eq_zero_or_pos n with rfl | hn
    · exact Nat.cast_zero (R := ℚ) ▸ .zero (s := .positive) rfl
    · have hlog := (log2_front hn h53).1
      have hvalue : ((n * 2 ^ (52 - n.log2) : Nat) : ℚ) * 2 ^ ((n.log2 : Int) - 52) = n := by
        rw [Nat.cast_mul, Nat.cast_pow, Nat.cast_ofNat, mul_assoc, ← zpow_natCast,
          ← zpow_add₀ two_ne_zero,
          show ((52 - n.log2 : Nat) : Int) + ((n.log2 : Int) - 52) = 0 by omega, zpow_zero, mul_one]
      exact hvalue ▸ .finite (unpack_ofNat hn h53)

theorem hasValue_one : HasValue 1.0 1 := by
  exact_mod_cast hasValue_ofNat (n := 1) (by decide)

theorem hasValue_signed {b : Binary} {n : Nat} (h53 : n < 2 ^ 53)
    (hsign : b.negative = true → n = 0) : HasValue (b.signed n) n := by
  unfold Binary.signed
  cases hb : b.negative with
  | false => exact hasValue_ofNat h53.le
  | true =>
    obtain rfl := hsign hb
    exact Nat.cast_zero (R := ℚ) ▸ .zero (s := .negative) rfl

/-- A significand with a negative exponent is a quotient of natural numbers, which is what the
    roundings divide. -/
theorem value_negSucc (m k : Nat) : (m : ℚ) * 2 ^ Int.negSucc k = m / (2 ^ (k + 1) : Nat) := by
  rw [zpow_negSucc, div_eq_mul_inv, Nat.cast_pow, Nat.cast_ofNat]

/-- A significand with an exponent that is not negative is a natural number. -/
theorem value_ofNat (m k : Nat) : (m : ℚ) * 2 ^ Int.ofNat k = (m * 2 ^ k : Nat) := by
  rw [Int.ofNat_eq_natCast, zpow_natCast, Nat.cast_mul, Nat.cast_pow, Nat.cast_ofNat]

/-- Cutting off the fraction of a double leaves the floor of its value, exactly. -/
theorem HasValue.trunc (h : HasValue x v) : HasValue (trunc x) ⌊v⌋₊ := by
  obtain ⟨⟨negative, m, e⟩, hb, hsign, hv⟩ := h.ofFloat?
  unfold Double.trunc
  rw [hb]
  cases e with
  | ofNat k =>
    rw [value_ofNat] at hv
    rw [hv, Nat.floor_natCast, ← hv]
    exact h
  | negSucc k =>
    rw [value_negSucc] at hv
    rw [hv, Rat.natFloor_natCast_div_natCast]
    have hshort : m < 2 ^ 53 := by have := significand_bounds hb; dsimp only at this; omega
    refine hasValue_signed (Nat.lt_of_le_of_lt (Nat.div_le_self _ _) hshort) fun hneg => ?_
    obtain rfl : m = 0 := by simpa [show negative = true from hneg] using hsign
    exact Nat.zero_div _

/-- A double with a value, negated, is not above one that is not negative. -/
theorem HasValue.neg_le (hx : HasValue x v) (hy : 0.0 ≤ y) : -x ≤ y := by
  have hneg : (-x).toModel.unpack = (Float.Model.pack x.toModel.unpack.neg).unpack := rfl
  have hbelow : ∀ u : UnpackedFloat, (∃ s, u = .zero s) ∨ (∃ m e hm, u = .finite .negative m e hm) →
      (u.compare y.toModel.unpack).any (·.isLE) = true := by
    rintro u (⟨s, rfl⟩ | ⟨m, e, hm, rfl⟩)
    all_goals
      rcases value_or_infinite hy with ⟨w, hw⟩ | hinf
      · cases hw with
        | zero hw => rw [hw]; rfl
        | finite hw => rw [hw]; rfl
      · rw [hinf]
        rfl
  rw [Double.le_iff, hneg]
  refine hbelow _ ?_
  cases hx with
  | @zero s hx =>
    rw [hx]
    exact Or.inl ⟨-s, unpack_pack_zero _⟩
  | @finite m e hm hx =>
    obtain ⟨hfits, hmost⟩ := fits_of_unpack hx
    rw [hx]
    exact Or.inr ⟨m, e, hm, unpack_pack_of_fits hm hfits hmost⟩

/-- Cutting off the fraction does not lead above a bound that is not negative. -/
theorem trunc_le (hx : x.isFinite = true) (hy : 0.0 ≤ y) (h : x ≤ y) : trunc x ≤ y := by
  -- a negative number goes up to zero at most
  have hnegative : ∀ {m e hm},
      x.toModel.unpack = .finite .negative m e hm → Double.trunc x ≤ y := by
    intro m e hm hu
    unfold Double.trunc
    rw [ofFloat?_of_unpack hu]
    cases e with
    | ofNat k => exact h
    | negSucc k =>
      have hshort := (unpack_bounds hu).1
      exact (hasValue_ofNat ((Nat.div_le_self _ _).trans hshort.le)).neg_le hy
  have hvalue : ∀ {v}, HasValue x v → Double.trunc x ≤ y := by
    intro v hv
    rcases value_or_infinite hy with ⟨w, hw⟩ | hinf
    · exact (hv.trunc.le_iff hw).mpr ((Nat.floor_le hv.nonneg).trans ((hv.le_iff hw).mp h))
    · exact hinf.le hv.trunc.isNaN
  rcases unpack_of_isFinite hx with ⟨s, hs⟩ | ⟨s, m, e, hm, hs⟩
  · exact hvalue (.zero hs)
  · cases s with
    | positive => exact hvalue (.finite hs)
    | negative => exact hnegative hs

/-- A quotient of natural numbers that is rounded up, as it is computed. -/
theorem ceil_div_eq (m : Nat) {unit : Nat} (hunit : 0 < unit) :
    ⌈(m : ℚ) / unit⌉₊ = (m + unit - 1) / unit := by
  refine eq_of_forall_ge_iff fun n => ?_
  rw [Nat.ceil_le, div_le_iff₀ (by exact_mod_cast hunit), Nat.div_le_iff_le_mul hunit]
  norm_cast
  omega

/-- Rounding a double up gives the ceiling of its value, exactly. -/
theorem HasValue.ceil (h : HasValue x v) : HasValue (ceil x) ⌈v⌉₊ := by
  obtain ⟨⟨negative, m, e⟩, hb, hsign, hv⟩ := h.ofFloat?
  unfold Double.ceil
  rw [hb]
  cases e with
  | ofNat k =>
    rw [value_ofNat] at hv
    rw [hv, Nat.ceil_natCast, ← hv]
    exact h
  | negSucc k =>
    rw [value_negSucc] at hv
    have hunit : 0 < 2 ^ (k + 1) := Nat.two_pow_pos _
    have hshort : m < 2 ^ 53 := by have := significand_bounds hb; dsimp only at this; omega
    rw [hv, ceil_div_eq m hunit]
    cases negative with
    | true =>
      obtain rfl : m = 0 := by simpa using hsign
      rw [Nat.zero_add, Nat.div_eq_of_lt (Nat.sub_one_lt hunit.ne')]
      show HasValue (Binary.signed ⟨true, 0, Int.negSucc k⟩ (0 / 2 ^ (k + 1))) _
      rw [Nat.zero_div]
      exact hasValue_signed (by decide) fun _ => rfl
    | false =>
      have hle : (m + 2 ^ (k + 1) - 1) / 2 ^ (k + 1) ≤ m := by
        rw [Nat.div_le_iff_le_mul hunit]
        have := Nat.le_mul_of_pos_right m hunit
        omega
      show HasValue (Binary.signed ⟨false, m, Int.negSucc k⟩ _) _
      exact hasValue_signed (Nat.lt_of_le_of_lt hle hshort) nofun

end

end SolidExport.Double
