/-
  When arithmetic on doubles stays finite.

  A double unpacks to a sign, a significand and an exponent.  An operation computes an exact result,
  rounds it to fifty-three bits, and packs it again; packing gives an infinity exactly when the
  exponent is past `971`.  So finiteness is a bound on the exponent after rounding
  (`roundWithAccuracy_cases`): rounding raises it by one at most, and only if all bits of the
  significand were set.

  From that bound follow the cases that the encoders rely on: half of a finite double is finite, so
  is a double times `1` or `-1`, and zero is neutral.
-/
import Mathlib.Algebra.Group.Nat.Defs
import SolidExport.Decimal.Binary

namespace SolidExport.Double

open Float.Model (Format totalExponent UnpackedFloat)
open Float.Model.UnpackedFloat

/-! ## Packing -/

/-- Whether a double is finite is read off its unpacked form. -/
theorem isFinite_eq (x : Float) : x.isFinite = x.toModel.unpack.isFinite := rfl

/-- A zero survives packing, with its sign. -/
theorem unpack_pack_zero (s : Sign) : (Float.Model.pack (.zero s)).unpack = .zero s := by
  cases s <;> rfl

/-- `Unpacks b u` — the bits `b` are unpacked to `u`, by their exponent and mantissa fields.  This
    is the format of doubles, a line for each kind of number. -/
inductive Unpacks (b : BitVec Format.binary64.numBits) : UnpackedFloat → Prop where
  | infinity (s : Sign) (hones : unpackExponent b = -1#11) : Unpacks b (.infinity s)
  | notANumber (hones : unpackExponent b = -1#11) : Unpacks b .notANumber
  | zero (hzeros : unpackExponent b = 0#11) (hfraction : unpackMantissa b = 0#52) :
      Unpacks b (.zero (Sign.ofBitVec (unpackSign b)))
  | subnormal (hzeros : unpackExponent b = 0#11) (hm : 0 < (unpackMantissa b).toNat) :
      Unpacks b (.finite (Sign.ofBitVec (unpackSign b)) (unpackMantissa b).toNat (-1074) hm)
  | normal (hones : unpackExponent b ≠ -1#11) (hzeros : unpackExponent b ≠ 0#11)
      (hm : 0 < (1#1 ++ unpackMantissa b).toNat) :
      Unpacks b (.finite (Sign.ofBitVec (unpackSign b)) (1#1 ++ unpackMantissa b).toNat
        ((unpackExponent b).toNat - 1075) hm)

theorem unpacks (b : BitVec Format.binary64.numBits) :
    Unpacks b (UnpackedFloat.unpack Format.binary64 b) := by
  have hbias : ((Format.binary64.exponentBias : Int) + Format.binary64.mantissaBitsWithoutImplicit)
      = 1075 := rfl
  unfold UnpackedFloat.unpack
  rw [hbias]
  dsimp only
  by_cases hones : unpackExponent b = -1#11
  · rw [if_pos hones]
    by_cases hfraction : unpackMantissa b = 0#52
    · rw [if_pos hfraction]
      exact .infinity _ hones
    · rw [if_neg hfraction]
      exact .notANumber hones
  · rw [if_neg hones]
    by_cases hzeros : unpackExponent b = 0#11
    · rw [if_pos hzeros]
      by_cases hfraction : unpackMantissa b = 0#52
      · rw [dif_pos hfraction]
        exact .zero hzeros hfraction
      · have hexponent : ((unpackExponent b).toNat : Int) - 1075 + 1 = -1074 := by
          rw [hzeros]
          rfl
        rw [dif_neg hfraction, hexponent]
        exact .subnormal hzeros _
    · rw [if_neg hzeros]
      exact .normal hones hzeros _

/-- A finite number whose exponent fits stays finite when it is packed, though it may lose bits. -/
theorem isFinite_unpack_pack {s : Sign} {m : Nat} {e : Int} {hm : 0 < m} (he : e ≤ 971) :
    (Float.Model.pack (.finite s m e hm)).unpack.isFinite = true := by
  have hbias : (e + Format.binary64.exponentBias + Format.binary64.mantissaBitsWithoutImplicit).toNat
      = (e + 1075).toNat := by
    show (e + 1023 + 52).toNat = _
    rw [Int.add_assoc]
    rfl
  have hfits : ¬ 2 ^ Format.binary64.exponentBits ≤ (e + 1075).toNat + 1 := by
    show ¬ 2048 ≤ _
    omega
  -- an exponent field other than all ones unpacks to a finite number
  have hfinite : ∀ (ex : BitVec 11) (ma : BitVec 52), ex ≠ -1#11 →
      (UnpackedFloat.unpack Format.binary64 (packComponents Format.binary64 s ex ma)).isFinite
        = true := by
    intro ex ma hex
    rw [← @unpackExponent_packComponents Format.binary64 s ex ma] at hex
    have hunpacks := unpacks (packComponents Format.binary64 s ex ma)
    generalize UnpackedFloat.unpack Format.binary64 (packComponents Format.binary64 s ex ma) = u
      at hunpacks ⊢
    cases hunpacks with
    | infinity _ hones => exact absurd hones hex
    | notANumber hones => exact absurd hones hex
    | zero => rfl
    | subnormal => rfl
    | normal => rfl
  show (UnpackedFloat.unpack Format.binary64
    (UnpackedFloat.pack Format.binary64 (.finite s m e hm))).isFinite = true
  unfold UnpackedFloat.pack
  simp only [hbias]
  rw [if_neg hfits]
  split
  · apply hfinite
    intro heq
    have := congrArg BitVec.toNat heq
    rw [BitVec.toNat_ofNat] at this
    change (e + 1075).toNat % 2048 = 2047 at this
    omega
  · apply hfinite
    decide

/-- What bits may unpack to: a significand of at most fifty-three bits, and an exponent between the
    least one and `971`. -/
theorem unpack_bits_bounds {b : BitVec Format.binary64.numBits} {s : Sign} {m : Nat} {e : Int}
    {hm : 0 < m} (h : UnpackedFloat.unpack Format.binary64 b = .finite s m e hm) :
    m < 2 ^ 53 ∧ -1074 ≤ e ∧ e ≤ 971 := by
  have hunpacks := unpacks b
  rw [h] at hunpacks
  cases hunpacks with
  | subnormal hzeros hm =>
    have hlt : (unpackMantissa b).toNat < 2 ^ 52 := (unpackMantissa b).isLt
    omega
  | normal hones hzeros hm =>
    have hlt : (1#1 ++ unpackMantissa b).toNat < 2 ^ 53 := (1#1 ++ unpackMantissa b).isLt
    have hex : (unpackExponent b).toNat < 2048 := (unpackExponent b).isLt
    have h0 : (unpackExponent b).toNat ≠ 0 := fun h0 => hzeros (BitVec.eq_of_toNat_eq h0)
    have h1 : (unpackExponent b).toNat ≠ 2047 := fun h1 => hones (BitVec.eq_of_toNat_eq h1)
    omega

/-- What a finite double unpacks to: a significand of at most fifty-three bits and an exponent in
    range. -/
theorem unpack_bounds {x : Float} {s : Sign} {m : Nat} {e : Int} {hm : 0 < m}
    (h : x.toModel.unpack = .finite s m e hm) : m < 2 ^ 53 ∧ -1074 ≤ e ∧ e ≤ 971 :=
  unpack_bits_bounds h

/-! ## Rounding -/

theorem binary64_targetExponent (t : Int) :
    Format.binary64.targetExponent t = max (t - 53) (-1074) := rfl

/-- Shifting by `k` drops `k` bits from the end of the significand. -/
theorem mantissa_shiftRight (em : ExtendedMantissa) (k : Nat) :
    (em >>> k).mantissa = em.mantissa / 2 ^ k := by
  induction k with
  | zero =>
    rw [Nat.pow_zero, Nat.div_one]
    rfl
  | succ k ih =>
    show (em >>> k).mantissa / 2 = _
    rw [ih, Nat.div_div_eq_div_mul, Nat.pow_succ]

theorem mantissa_ofMantissaAndAccuracy (m : Nat) (a : Accuracy) :
    (ExtendedMantissa.ofMantissaAndAccuracy m a).mantissa = m := by
  cases a with
  | exact => rfl
  | inexact order => cases order <;> rfl

/-- Rounding raises the significand by one at most, whatever the two bits behind it say. -/
theorem roundedMantissa_le (em : ExtendedMantissa) : em.roundedMantissa ≤ em.mantissa + 1 := by
  unfold ExtendedMantissa.roundedMantissa
  cases em.accuracy with
  | exact => exact Nat.le_succ _
  | inexact order =>
    cases order with
    | lt => exact Nat.le_succ _
    | eq =>
      show em.mantissa + em.mantissa % 2 ≤ _
      omega
    | gt => exact Nat.le_refl _

/-- Shifted to its target exponent, a significand has at most fifty-three bits. -/
theorem shifted_lt (m : Nat) (e : Int) :
    m / 2 ^ (Format.binary64.targetExponent (totalExponent m e) - e).toNat < 2 ^ 53 := by
  rw [binary64_targetExponent]
  unfold totalExponent
  have hlt : m < 2 ^ (m.log2 + 1) := Nat.lt_log2_self
  rw [Nat.div_lt_iff_lt_mul (Nat.two_pow_pos _), ← Nat.pow_add]
  exact Nat.lt_of_lt_of_le hlt (Nat.pow_le_pow_right (by decide) (by omega))

/-- Rounding a significand of at most fifty-three bits a second time leaves the exponent where it
    is; one of more, that is the power of two past them, raises it by one. -/
theorem secondShift_le {r : Nat} {e : Int} (hr : r ≤ 2 ^ 53) (he : -1074 ≤ e) :
    (shiftToTargetExponent Format.binary64 r e .exact).2 ≤ e + 1 ∧
    (r < 2 ^ 53 → (shiftToTargetExponent Format.binary64 r e .exact).2 = e) := by
  unfold shiftToTargetExponent shiftToExponent
  simp only [binary64_targetExponent, totalExponent]
  by_cases hz : r = 0
  · subst hz
    have : Nat.log2 0 = 0 := by decide
    omega
  · have hlog : r.log2 ≤ 53 := by
      have h : 2 ^ r.log2 ≤ 2 ^ 53 := Nat.le_trans (Nat.log2_self_le hz) hr
      exact (Nat.pow_le_pow_iff_right (by decide)).mp h
    refine ⟨by omega, fun hlt => ?_⟩
    have hlog' : r.log2 < 53 := (Nat.log2_lt hz).mpr hlt
    omega

/-- Rounding shifts to the exponent of the format, rounds, and shifts once more for the carry.  What
    comes out has the significand of the second shift, or is a zero. -/
theorem roundWithAccuracy_of_shifts {s : Sign} {m : Nat} {e : Int} {a : Accuracy}
    {em em' : ExtendedMantissa} {e₁ e' : Int}
    (hfirst : shiftToTargetExponent Format.binary64 m e a = (em, e₁))
    (hsecond : shiftToTargetExponent Format.binary64 em.roundedMantissa e₁ .exact = (em', e')) :
    (em'.mantissa = 0 ∧ roundWithAccuracy Format.binary64 s m e a = .zero s) ∨
    ∃ hm, roundWithAccuracy Format.binary64 s m e a = .finite s em'.mantissa e' hm := by
  unfold roundWithAccuracy
  rw [hfirst]
  dsimp only
  rw [hsecond]
  by_cases hzero : em'.mantissa = 0
  · exact Or.inl ⟨hzero, dif_pos hzero⟩
  · exact Or.inr ⟨Nat.pos_of_ne_zero hzero, dif_neg hzero⟩

/-- **The exponent after rounding.**  What is rounded from `m · 2 ^ e` is zero or has an exponent
    that is at most one above the one it was shifted to, and no higher if no carry left the
    significand. -/
theorem roundWithAccuracy_cases (s : Sign) (m : Nat) (e : Int) (a : Accuracy) :
    roundWithAccuracy Format.binary64 s m e a = .zero s ∨
    ∃ m' e' hm', roundWithAccuracy Format.binary64 s m e a = .finite s m' e' hm' ∧
      e' ≤ max e (max (totalExponent m e - 53) (-1074)) + 1 ∧
      ((shiftToTargetExponent Format.binary64 m e a).1.roundedMantissa < 2 ^ 53 →
        e' = max e (max (totalExponent m e - 53) (-1074))) := by
  generalize hem : shiftToTargetExponent Format.binary64 m e a = first
  obtain ⟨em, e₁⟩ := first
  have he₁ : e₁ = max e (max (totalExponent m e - 53) (-1074)) := by
    have h : e + ((Format.binary64.targetExponent (totalExponent m e) - e).toNat : Int) = e₁ :=
      congrArg Prod.snd hem
    rw [binary64_targetExponent] at h
    omega
  have hmantissa : em.mantissa < 2 ^ 53 := by
    have h : (ExtendedMantissa.ofMantissaAndAccuracy m a >>>
        (Format.binary64.targetExponent (totalExponent m e) - e).toNat) = em :=
      congrArg Prod.fst hem
    rw [← h, mantissa_shiftRight, mantissa_ofMantissaAndAccuracy]
    exact shifted_lt m e
  have hrounded : em.roundedMantissa ≤ 2 ^ 53 := by
    have := roundedMantissa_le em
    omega
  obtain ⟨hle, heq⟩ := secondShift_le hrounded (show -1074 ≤ e₁ by omega)
  rcases roundWithAccuracy_of_shifts hem (Prod.eta _).symm with ⟨-, hr⟩ | ⟨hm, hr⟩
  · exact Or.inl hr
  · refine Or.inr ⟨_, _, hm, hr, ?_, ?_⟩
    · rw [← he₁]
      exact hle
    · intro hlt
      rw [← he₁]
      exact heq hlt

/-- What is rounded from a number whose exponents are below the greatest ones is finite, carry or
    not. -/
theorem isFinite_round {s : Sign} {m : Nat} {e : Int} {a : Accuracy} (he : e ≤ 970)
    (ht : totalExponent m e ≤ 1023) :
    (Float.Model.pack (roundWithAccuracy Format.binary64 s m e a)).unpack.isFinite = true := by
  rcases roundWithAccuracy_cases s m e a with hz | ⟨m', e', hm', hr, hle, -⟩
  · rw [hz, unpack_pack_zero]
    rfl
  · rw [hr]
    exact isFinite_unpack_pack (by omega)

/-! ## Half of a double -/

/-- Dropping `k` bits from the end shortens a number by as many. -/
theorem log2_div_two_pow_le {a k n : Nat} (h : a < 2 ^ (n + k)) : (a / 2 ^ k).log2 ≤ n - 1 := by
  by_cases hz : a / 2 ^ k = 0
  · rw [hz, Nat.log2_zero]
    exact Nat.zero_le _
  · have hlt : a / 2 ^ k < 2 ^ n := by
      rw [Nat.div_lt_iff_lt_mul (Nat.two_pow_pos k), ← Nat.pow_add]
      exact h
    have := (Nat.log2_lt hz).mpr hlt
    omega

theorem unpack_two : (2.0 : Float).toModel.unpack = .finite .positive (2 ^ 52) (-51) (by decide) :=
  rfl

/-- Half of a finite double is finite.  A diameter is read so. -/
theorem isFinite_half {x : Float} (hx : x.isFinite = true) : (x / 2.0).isFinite = true := by
  show (Float.Model.pack (UnpackedFloat.div Format.binary64 x.toModel.unpack
    (2.0 : Float).toModel.unpack)).unpack.isFinite = true
  rw [unpack_two]
  rw [isFinite_eq] at hx
  cases hu : x.toModel.unpack with
  | notANumber => rw [hu] at hx; exact nomatch hx
  | infinity s => rw [hu] at hx; exact nomatch hx
  | zero s => cases s <;> rfl
  | finite s m e hm =>
    obtain ⟨hm53, hlo, hhi⟩ := unpack_bounds hu
    have hlog : m.log2 < 53 := (Nat.log2_lt (by omega)).mpr hm53
    have htwo : totalExponent (2 ^ 52) (-51) = 2 := by decide
    -- the exponent that the quotient is computed for, and how far the dividend is moved for it
    generalize htarget : min (e - -51) (max (totalExponent m e - 2 - 53) (-1074)) = target
    generalize hshift : (e - -51 - target).toNat = shift
    have hdiv : UnpackedFloat.div Format.binary64 (.finite s m e hm)
        (.finite .positive (2 ^ 52) (-51) (by decide))
        = roundWithAccuracy Format.binary64 (s / .positive) (m <<< shift / 2 ^ 52) target
            (accuracyOfFraction (m <<< shift % 2 ^ 52) (2 ^ 52)) := by
      rw [← hshift, ← htarget, ← htwo, ← binary64_targetExponent]
      rfl
    rw [hdiv]
    unfold totalExponent at htarget
    refine isFinite_round (by omega) ?_
    have hlt : m <<< shift < 2 ^ (m.log2 + 1 + shift - 52 + 52) := by
      rw [Nat.shiftLeft_eq]
      calc m * 2 ^ shift < 2 ^ (m.log2 + 1) * 2 ^ shift :=
            Nat.mul_lt_mul_of_pos_right Nat.lt_log2_self (Nat.two_pow_pos shift)
        _ = 2 ^ (m.log2 + 1 + shift) := (Nat.pow_add ..).symm
        _ ≤ 2 ^ (m.log2 + 1 + shift - 52 + 52) := Nat.pow_le_pow_right (by decide) (by omega)
    have hq := log2_div_two_pow_le hlt
    unfold totalExponent
    omega

/-! ## Zero and one -/

/-- `IsZero x` — the double `x` is a zero, of either sign. -/
def IsZero (x : Float) : Prop := ∃ s, x.toModel.unpack = .zero s

/-- `IsUnit x` — the double `x` is one or minus one.  A product with it has the other factor's
    magnitude, so it is finite. -/
def IsUnit (x : Float) : Prop := ∃ s, x.toModel.unpack = .finite s (2 ^ 52) (-52) (by decide)

theorem isZero_zero : IsZero 0.0 := ⟨.positive, rfl⟩

theorem isUnit_one : IsUnit 1.0 := ⟨.positive, rfl⟩

theorem isUnit_neg_one : IsUnit (-1.0) := ⟨.negative, rfl⟩

theorem IsZero.isFinite {x : Float} (hx : IsZero x) : x.isFinite = true := by
  obtain ⟨s, hs⟩ := hx
  rw [isFinite_eq, hs]
  rfl

theorem beq_zero_iff {x : Float} : (x == 0.0) = true ↔ IsZero x := by
  have hzero : (0.0 : Float).toModel.unpack = .zero .positive := rfl
  show (x.toModel.unpack.compare (0.0 : Float).toModel.unpack == some .eq) = true ↔ _
  rw [hzero, beq_iff_eq]
  unfold IsZero
  cases x.toModel.unpack with
  | notANumber => exact iff_of_false nofun nofun
  | infinity s => cases s <;> exact iff_of_false nofun nofun
  | zero s => exact iff_of_true rfl ⟨s, rfl⟩
  | finite s => cases s <;> exact iff_of_false nofun nofun

/-- What a finite double unpacks to is a zero, or it has a significand. -/
theorem unpack_of_isFinite {x : Float} (hx : x.isFinite = true) :
    (∃ s, x.toModel.unpack = .zero s) ∨ ∃ s m e hm, x.toModel.unpack = .finite s m e hm := by
  rw [isFinite_eq] at hx
  cases hu : x.toModel.unpack with
  | notANumber => rw [hu] at hx; exact nomatch hx
  | infinity s => rw [hu] at hx; exact nomatch hx
  | zero s => exact Or.inl ⟨s, rfl⟩
  | finite s m e hm => exact Or.inr ⟨s, m, e, hm, rfl⟩

/-- Zero times a finite double is zero; times an infinity it would be a NaN. -/
theorem IsZero.mul {x y : Float} (hx : IsZero x) (hy : y.isFinite = true) : IsZero (x * y) := by
  obtain ⟨s, hs⟩ := hx
  show ∃ t, (Float.Model.pack (UnpackedFloat.mul Format.binary64 x.toModel.unpack
    y.toModel.unpack)).unpack = .zero t
  rcases unpack_of_isFinite hy with ⟨t, ht⟩ | ⟨t, m, e, hm, hu⟩
  · rw [hs, ht]
    exact ⟨s * t, unpack_pack_zero _⟩
  · rw [hs, hu]
    exact ⟨s * t, unpack_pack_zero _⟩

/-- Zero added to zero is zero, whatever their signs. -/
theorem IsZero.add {x y : Float} (hx : IsZero x) (hy : IsZero y) : IsZero (x + y) := by
  obtain ⟨s, hs⟩ := hx
  obtain ⟨t, ht⟩ := hy
  show ∃ r, (Float.Model.pack (UnpackedFloat.add Format.binary64 x.toModel.unpack
    y.toModel.unpack)).unpack = .zero r
  rw [hs, ht]
  cases s <;> cases t
  all_goals exact ⟨_, unpack_pack_zero _⟩

/-- Zero in front of a finite double makes a finite sum. -/
theorem IsZero.isFinite_add {x y : Float} (hx : IsZero x) (hy : y.isFinite = true) :
    (x + y).isFinite = true := by
  rcases unpack_of_isFinite hy with ht | ⟨t, m, e, hm, hu⟩
  · exact (hx.add ht).isFinite
  · obtain ⟨s, hs⟩ := hx
    show (Float.Model.pack (UnpackedFloat.add Format.binary64 x.toModel.unpack
      y.toModel.unpack)).unpack.isFinite = true
    rw [hs, hu]
    exact isFinite_unpack_pack (unpack_bounds hu).2.2

/-- Zero behind a finite double makes a finite sum. -/
theorem IsZero.isFinite_add' {x y : Float} (hy : IsZero y) (hx : x.isFinite = true) :
    (x + y).isFinite = true := by
  rcases unpack_of_isFinite hx with hs | ⟨s, m, e, hm, hu⟩
  · exact (IsZero.add hs hy).isFinite
  · obtain ⟨t, ht⟩ := hy
    show (Float.Model.pack (UnpackedFloat.add Format.binary64 x.toModel.unpack
      y.toModel.unpack)).unpack.isFinite = true
    rw [ht, hu]
    exact isFinite_unpack_pack (unpack_bounds hu).2.2

/-- A significand that ends in `j` zeros loses nothing when no more than these are dropped. -/
theorem shiftRight_exact (a : Nat) {j k : Nat} (h : k ≤ j) :
    (ExtendedMantissa.ofMantissaAndAccuracy (a * 2 ^ j) .exact >>> k)
      = ⟨a * 2 ^ (j - k), false, false⟩ := by
  induction k with
  | zero => rfl
  | succ k ih =>
    show (ExtendedMantissa.ofMantissaAndAccuracy (a * 2 ^ j) .exact >>> k).shiftRightOne = _
    rw [ih (by omega), show j - k = j - (k + 1) + 1 from by omega, Nat.pow_succ, ← Nat.mul_assoc]
    unfold ExtendedMantissa.shiftRightOne
    rw [Nat.mul_div_cancel _ (by decide), Nat.mul_mod_left]
    rfl

/-- Putting `k` zeros behind a significand makes it longer by as many bits. -/
theorem log2_mul_two_pow {m : Nat} (hm : 0 < m) (k : Nat) : (m * 2 ^ k).log2 = m.log2 + k := by
  have hpos : 0 < 2 ^ k := Nat.two_pow_pos k
  rw [Nat.log2_eq_iff (Nat.ne_of_gt (Nat.mul_pos hm hpos))]
  constructor
  · rw [Nat.pow_add]
    exact Nat.mul_le_mul_right _ (Nat.log2_self_le (Nat.ne_of_gt hm))
  · rw [Nat.add_right_comm, Nat.pow_add]
    exact Nat.mul_lt_mul_of_pos_right Nat.lt_log2_self hpos

/-- A significand that fits, with fifty-two zeros behind it, is rounded without a carry.  A product
    with one looks like this. -/
theorem isFinite_round_padded {s : Sign} {m : Nat} {e : Int} (hm : 0 < m) (hm53 : m < 2 ^ 53)
    (hlo : -1074 ≤ e) (hhi : e ≤ 971) :
    (Float.Model.pack (roundWithAccuracy Format.binary64 s (m * 2 ^ 52) (e - 52)
      .exact)).unpack.isFinite = true := by
  have hlog : m.log2 < 53 := (Nat.log2_lt (by omega)).mpr hm53
  have htotal : totalExponent (m * 2 ^ 52) (e - 52) = totalExponent m e := by
    unfold totalExponent
    rw [log2_mul_two_pow hm]
    omega
  rcases roundWithAccuracy_cases s (m * 2 ^ 52) (e - 52) .exact with
    hz | ⟨m', e', hm', hr, -, hcarry⟩
  · rw [hz, unpack_pack_zero]
    rfl
  · -- the shift drops some of the zeros only, so nothing is rounded and nothing carried
    have hlt := shifted_lt (m * 2 ^ 52) (e - 52)
    have hshift : (Format.binary64.targetExponent (totalExponent (m * 2 ^ 52) (e - 52))
        - (e - 52)).toNat ≤ 52 := by
      rw [htotal, binary64_targetExponent]
      unfold totalExponent
      omega
    have hexact : (shiftToTargetExponent Format.binary64 (m * 2 ^ 52) (e - 52)
        .exact).1.roundedMantissa < 2 ^ 53 := by
      unfold shiftToTargetExponent shiftToExponent
      rw [← mantissa_ofMantissaAndAccuracy (m * 2 ^ 52) .exact, ← mantissa_shiftRight,
        mantissa_ofMantissaAndAccuracy, shiftRight_exact m hshift] at hlt
      simp only [shiftRight_exact m hshift]
      exact hlt
    have he' := hcarry hexact
    rw [htotal] at he'
    unfold totalExponent at he'
    rw [hr]
    exact isFinite_unpack_pack (by omega)

/-- One or minus one times a finite double is finite, even the greatest one. -/
theorem IsUnit.isFinite_mul {x y : Float} (hx : IsUnit x) (hy : y.isFinite = true) :
    (x * y).isFinite = true := by
  obtain ⟨s, hs⟩ := hx
  show (Float.Model.pack (UnpackedFloat.mul Format.binary64 x.toModel.unpack
    y.toModel.unpack)).unpack.isFinite = true
  rcases unpack_of_isFinite hy with ⟨t, ht⟩ | ⟨t, m, e, hm, hu⟩
  · rw [hs, ht]
    cases s <;> cases t <;> rfl
  · obtain ⟨hm53, hlo, hhi⟩ := unpack_bounds hu
    rw [hs, hu]
    show (Float.Model.pack (roundWithAccuracy Format.binary64 (s * t) (2 ^ 52 * m) (-52 + e)
      .exact)).unpack.isFinite = true
    rw [Nat.mul_comm, Int.add_comm]
    exact isFinite_round_padded hm hm53 hlo hhi

end SolidExport.Double
