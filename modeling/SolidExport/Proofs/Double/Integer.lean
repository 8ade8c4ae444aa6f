/-
  Doubles without a fraction.

  A natural number of at most fifty-three bits is a double, exactly: its significand is the number
  with zeros behind it (`unpack_ofNat`).  So cutting the fraction off a finite double is exact, and
  gives a double that is finite and has no fraction (`trunc_whole`).
-/
import SolidExport.Proofs.Double.Finite

namespace SolidExport.Double

open Float.Model (Format totalExponent UnpackedFloat)
open Float.Model.UnpackedFloat

/-! ## Numbers that fill the significand -/

/-- A shift by the `k` zeros behind a significand `m` leaves `m`, with nothing to be rounded. -/
theorem shiftToTargetExponent_exact {m : Nat} {e : Int} {k : Nat}
    (htarget : Format.binary64.targetExponent (totalExponent (m * 2 ^ k) (e - k)) = e) :
    shiftToTargetExponent Format.binary64 (m * 2 ^ k) (e - k) .exact = (⟨m, false, false⟩, e) := by
  have hshift : (Format.binary64.targetExponent (totalExponent (m * 2 ^ k) (e - k))
      - (e - k)).toNat = k := by
    omega
  show (ExtendedMantissa.ofMantissaAndAccuracy (m * 2 ^ k) .exact >>> (Format.binary64.targetExponent
      (totalExponent (m * 2 ^ k) (e - k)) - (e - k)).toNat,
    e - k + ((Format.binary64.targetExponent (totalExponent (m * 2 ^ k) (e - k))
      - (e - k)).toNat : Int)) = _
  rw [hshift, shiftRight_exact m (Nat.le_refl k), Nat.sub_self, Nat.pow_zero, Nat.mul_one,
    Int.sub_add_cancel]

/-- A significand of fifty-three bits is rounded to itself, whatever zeros stand behind it. -/
theorem round_normal {s : Sign} {m : Nat} {e : Int} (hm : 0 < m) (hlog : m.log2 = 52)
    (hlo : -1074 ≤ e) (k : Nat) :
    roundWithAccuracy Format.binary64 s (m * 2 ^ k) (e - k) .exact = .finite s m e hm := by
  have htarget : ∀ j : Nat,
      Format.binary64.targetExponent (totalExponent (m * 2 ^ j) (e - j)) = e := by
    intro j
    rw [binary64_targetExponent]
    unfold totalExponent
    rw [log2_mul_two_pow hm, hlog]
    omega
  have hfirst := shiftToTargetExponent_exact (htarget k)
  have hsecond : shiftToTargetExponent Format.binary64 m e .exact = (⟨m, false, false⟩, e) := by
    have h := shiftToTargetExponent_exact (htarget 0)
    rw [Nat.pow_zero, Nat.mul_one, Int.natCast_zero, Int.sub_zero] at h
    exact h
  rcases roundWithAccuracy_of_shifts hfirst hsecond with ⟨hzero, -⟩ | ⟨_, hr⟩
  · exact absurd hzero (Nat.ne_of_gt hm)
  · exact hr

/-- The sign is the first bit of a packed double, and is unpacked from there. -/
theorem unpackSign_packComponents (s : Sign) (ex : BitVec 11) (ma : BitVec 52) :
    Sign.ofBitVec (unpackSign (packComponents Format.binary64 s ex ma)) = s := by
  -- the two fields behind the sign are skipped one after the other
  show Sign.ofBitVec ((s.toBitVec ++ ex ++ ma).extractLsb' 63 1) = s
  rw [BitVec.extractLsb'_append_eq_of_le (by decide : 52 ≤ 63),
    BitVec.extractLsb'_append_eq_of_le (by decide : 11 ≤ 63 - 52)]
  cases s <;> rfl

/-- The bit that is not stored stands before the mantissa field, so it counts `2 ^ 52`. -/
theorem toNat_implicitBit (ma : BitVec 52) : (1#1 ++ ma).toNat = ma.toNat + 2 ^ 52 := by
  rw [BitVec.toNat_append, BitVec.toNat_ofNat, Nat.shiftLeft_eq,
    show 1 % 2 ^ 1 * 2 ^ 52 = 2 ^ 52 * 1 from rfl, ← Nat.two_pow_add_eq_or_of_lt ma.isLt]
  omega

/-- A significand of fifty-three bits survives packing, if its exponent is in range. -/
theorem unpack_pack_normal {s : Sign} {m : Nat} {e : Int} (hm : 0 < m) (hlog : m.log2 = 52)
    (hlo : -1074 ≤ e) (hhi : e ≤ 971) :
    (Float.Model.pack (.finite s m e hm)).unpack = .finite s m e hm := by
  have hbias : (e + Format.binary64.exponentBias + Format.binary64.mantissaBitsWithoutImplicit).toNat
      = (e + 1075).toNat := by
    show (e + 1023 + 52).toNat = _
    rw [Int.add_assoc]
    rfl
  have hfits : ¬ 2 ^ Format.binary64.exponentBits ≤ (e + 1075).toNat + 1 := by
    show ¬ 2048 ≤ _
    omega
  have hfield : (BitVec.ofNat 11 (e + 1075).toNat).toNat = (e + 1075).toNat := by
    rw [BitVec.toNat_ofNat]
    omega
  have hones : BitVec.ofNat 11 (e + 1075).toNat ≠ -1#11 := by
    intro h
    have h' : (e + 1075).toNat = 2047 := by
      rw [← hfield, h]
      rfl
    omega
  have hzeros : BitVec.ofNat 11 (e + 1075).toNat ≠ 0#11 := by
    intro h
    have h' : (e + 1075).toNat = 0 := by
      rw [← hfield, h]
      rfl
    omega
  obtain ⟨hge, hlt⟩ := (Nat.log2_eq_iff (Nat.ne_of_gt hm)).mp hlog
  have hbits : (1#1 ++ BitVec.ofNat 52 m).toNat = m := by
    rw [toNat_implicitBit, BitVec.toNat_ofNat]
    omega
  have hpack : UnpackedFloat.pack Format.binary64 (.finite s m e hm) =
      packComponents Format.binary64 s (BitVec.ofNat 11 (e + 1075).toNat) (BitVec.ofNat 52 m) := by
    unfold UnpackedFloat.pack
    dsimp only
    rw [hbias, if_neg hfits]
    exact if_pos (show m.log2 + 1 = 53 by rw [hlog])
  show UnpackedFloat.unpack Format.binary64
    (UnpackedFloat.pack Format.binary64 (.finite s m e hm)) = _
  rw [hpack]
  have hunpacks := unpacks (packComponents Format.binary64 s (BitVec.ofNat 11 (e + 1075).toNat)
    (BitVec.ofNat 52 m))
  generalize UnpackedFloat.unpack Format.binary64 _ = u at hunpacks ⊢
  cases hunpacks with
  | infinity _ hall => exact absurd (unpackExponent_packComponents.symm.trans hall) hones
  | notANumber hall => exact absurd (unpackExponent_packComponents.symm.trans hall) hones
  | zero hnone => exact absurd (unpackExponent_packComponents.symm.trans hnone) hzeros
  | subnormal hnone => exact absurd (unpackExponent_packComponents.symm.trans hnone) hzeros
  | normal =>
    rw [UnpackedFloat.finite.injEq]
    refine ⟨unpackSign_packComponents _ _ _, ?_, ?_⟩
    · rw [unpackMantissa_packComponents]
      exact hbits
    · rw [unpackExponent_packComponents, show (BitVec.ofNat Format.binary64.exponentBits
        (e + 1075).toNat).toNat = (e + 1075).toNat from hfield]
      omega

/-! ## Natural numbers -/

/-- A natural number of at most fifty-three bits, moved to the front of the significand, fills
    it. -/
theorem log2_front {n : Nat} (hn : 0 < n) (h53 : n < 2 ^ 53) :
    n.log2 ≤ 52 ∧ (n * 2 ^ (52 - n.log2)).log2 = 52 := by
  have hlog : n.log2 < 53 := (Nat.log2_lt (Nat.ne_of_gt hn)).mpr h53
  rw [log2_mul_two_pow hn]
  omega

/-- Rounding a natural number of at most fifty-three bits puts zeros behind it until the significand
    is full, and drops nothing. -/
theorem round_natural {n : Nat} (hn : 0 < n) (h53 : n < 2 ^ 53) :
    UnpackedFloat.round Format.binary64 .positive n 0
      = .finite .positive (n * 2 ^ (52 - n.log2)) ((n.log2 : Int) - 52)
          (Nat.mul_pos hn (Nat.two_pow_pos _)) := by
  obtain ⟨hlog, hfront⟩ := log2_front hn h53
  have htarget : Format.binary64.targetExponent (totalExponent n 0) = (n.log2 : Int) - 52 := by
    rw [binary64_targetExponent]
    unfold totalExponent
    omega
  have hshift : (0 - ((n.log2 : Int) - 52)).toNat = 52 - n.log2 := by omega
  have hexponent : (0 : Int) - ((52 - n.log2 : Nat) : Int) = (n.log2 : Int) - 52 := by omega
  have hnormal := round_normal (s := .positive) (Nat.mul_pos hn (Nat.two_pow_pos _)) hfront
    (show -1074 ≤ (n.log2 : Int) - 52 by omega) 0
  rw [Nat.pow_zero, Nat.mul_one, Int.natCast_zero, Int.sub_zero] at hnormal
  rw [← hnormal]
  show roundWithAccuracy Format.binary64 .positive
    (n <<< (0 - Format.binary64.targetExponent (totalExponent n 0)).toNat)
    (0 - ((0 - Format.binary64.targetExponent (totalExponent n 0)).toNat : Int)) .exact = _
  rw [htarget, hshift, Nat.shiftLeft_eq, hexponent]

/-- A word of at most fifty-three bits is converted exactly: its bits stand at the front of the
    significand. -/
theorem unpack_toFloat_word {n : Nat} (hn : 0 < n) (h53 : n < 2 ^ 53) :
    n.toUInt64.toFloat.toModel.unpack
      = .finite .positive (n * 2 ^ (52 - n.log2)) ((n.log2 : Int) - 52)
          (Nat.mul_pos hn (Nat.two_pow_pos _)) := by
  obtain ⟨hlog, hfront⟩ := log2_front hn h53
  have hword : n.toUInt64.toNat = n := by
    rw [Nat.toUInt64, UInt64.toNat_ofNat', Nat.mod_eq_of_lt (by omega)]
  show (Float.Model.pack (UnpackedFloat.normalize Format.binary64 (n.toUInt64.toNat : Int) 0
    .positive)).unpack = _
  rw [hword]
  unfold UnpackedFloat.normalize
  rw [Int.compare_eq_gt.mpr (by omega)]
  show (Float.Model.pack (UnpackedFloat.round Format.binary64 .positive ((n : Int).toNat)
    0)).unpack = _
  rw [Int.toNat_natCast, round_natural hn h53]
  exact unpack_pack_normal _ hfront (by omega) (by omega)

/-- **Natural numbers of at most fifty-three bits are doubles**, with their bits at the front of the
    significand. -/
theorem unpack_ofNat {n : Nat} (hn : 0 < n) (h53 : n < 2 ^ 53) :
    (Float.ofNat n).toModel.unpack
      = .finite .positive (n * 2 ^ (52 - n.log2)) ((n.log2 : Int) - 52)
          (Nat.mul_pos hn (Nat.two_pow_pos _)) := by
  obtain ⟨hlog, hfront⟩ := log2_front hn h53
  have hofNat : Float.ofNat n = n.toUInt64.toFloat * 1.0 := by
    show Float.ofScientific n false 0 = _
    unfold Float.ofScientific
    rw [dif_pos ⟨h53, by decide⟩]
    rfl
  have hone : (1.0 : Float).toModel.unpack = .finite .positive (2 ^ 52) (-52) (by decide) := rfl
  rw [hofNat]
  show (Float.Model.pack (UnpackedFloat.mul Format.binary64 n.toUInt64.toFloat.toModel.unpack
    (1.0 : Float).toModel.unpack)).unpack = _
  rw [unpack_toFloat_word hn h53, hone]
  show (Float.Model.pack (roundWithAccuracy Format.binary64 .positive
    (n * 2 ^ (52 - n.log2) * 2 ^ 52) ((n.log2 : Int) - 52 - (52 : Nat)) .exact)).unpack = _
  rw [round_normal (Nat.mul_pos hn (Nat.two_pow_pos _)) hfront (by omega)]
  exact unpack_pack_normal _ hfront (by omega) (by omega)

/-! ## The exact value of a double -/

/-- The mantissa field of a double is its last fifty-two bits. -/
theorem toNat_unpackMantissa (b : BitVec Format.binary64.numBits) :
    (unpackMantissa b).toNat = b.toNat % 2 ^ 52 := by
  show (b.extractLsb' 0 52).toNat = _
  rw [BitVec.extractLsb'_toNat, Nat.shiftRight_zero]

/-- The exponent field of a double is the eleven bits before the mantissa. -/
theorem toNat_unpackExponent (b : BitVec Format.binary64.numBits) :
    (unpackExponent b).toNat = b.toNat / 2 ^ 52 % 2 ^ 11 := by
  show (b.extractLsb' 52 11).toNat = _
  rw [BitVec.extractLsb'_toNat, Nat.shiftRight_eq_div_pow]

/-- The exact value of a double, by the fields of its bits, so that it can be compared with what the
    double is unpacked to. -/
theorem ofFloat?_eq (x : Float) :
    Binary.ofFloat? x =
      let fraction := (@unpackMantissa Format.binary64 x.toModel.toBits.toBitVec).toNat
      let biased := (@unpackExponent Format.binary64 x.toModel.toBits.toBitVec).toNat
      let negative := x.toBits.toNat / 2 ^ 63 == 1
      if biased = 2047 then none
      else if biased = 0 then some ⟨negative, fraction, -1074⟩
      else some ⟨negative, fraction + 2 ^ 52, (biased : Int) - 1075⟩ := by
  simp only [toNat_unpackMantissa, toNat_unpackExponent]
  rfl

/-- A double that is unpacked to a significand `m` and an exponent `e` has them as its exact
    value. -/
theorem ofFloat?_of_finite {x : Float} {s : Sign} {m : Nat} {e : Int} {hm : 0 < m}
    (h : x.toModel.unpack = .finite s m e hm) :
    ∃ negative, Binary.ofFloat? x = some ⟨negative, m, e⟩ := by
  have hunpacks := unpacks x.toModel.toBits.toBitVec
  rw [show UnpackedFloat.unpack Format.binary64 x.toModel.toBits.toBitVec = .finite s m e hm from h]
    at hunpacks
  rw [ofFloat?_eq]
  generalize x.toModel.toBits.toBitVec = b at hunpacks ⊢
  dsimp only
  cases hunpacks with
  | subnormal hzeros hm =>
    rw [if_neg (by rw [hzeros]; decide), if_pos (by rw [hzeros]; rfl)]
    exact ⟨_, rfl⟩
  | normal hones hzeros hm =>
    have hfield : (@unpackExponent Format.binary64 b).toNat ≠ 2047 :=
      fun h1 => hones (BitVec.eq_of_toNat_eq h1)
    have hnormal : (@unpackExponent Format.binary64 b).toNat ≠ 0 :=
      fun h0 => hzeros (BitVec.eq_of_toNat_eq h0)
    have hfront : (1#1 ++ @unpackMantissa Format.binary64 b).toNat
        = (@unpackMantissa Format.binary64 b).toNat + 2 ^ 52 := toNat_implicitBit _
    rw [if_neg hfield, if_neg hnormal, ← hfront]
    exact ⟨_, rfl⟩

/-- A zero has the significand zero in its exact value. -/
theorem ofFloat?_of_zero {x : Float} (h : IsZero x) :
    ∃ negative e, Binary.ofFloat? x = some ⟨negative, 0, e⟩ := by
  obtain ⟨s, h⟩ := h
  have hunpacks := unpacks x.toModel.toBits.toBitVec
  rw [show UnpackedFloat.unpack Format.binary64 x.toModel.toBits.toBitVec = .zero s from h]
    at hunpacks
  rw [ofFloat?_eq]
  generalize x.toModel.toBits.toBitVec = b at hunpacks ⊢
  dsimp only
  cases hunpacks with
  | zero hzeros hfraction =>
    rw [if_neg (by rw [hzeros]; decide), if_pos (by rw [hzeros]; rfl), hfraction]
    exact ⟨_, _, rfl⟩

/-! ## Cutting off the fraction -/

/-- A significand with as many zeros behind it as stand behind the point is a whole number. -/
theorem isInteger_of_unpack {x : Float} {s : Sign} {n k : Nat} {e : Int} {hm : 0 < n * 2 ^ k}
    (h : x.toModel.unpack = .finite s (n * 2 ^ k) e hm) (he : e = -(k : Int)) :
    isInteger x = true := by
  obtain ⟨negative, hx⟩ := ofFloat?_of_finite h
  unfold isInteger
  rw [hx]
  subst he
  cases k with
  | zero => rfl
  | succ k =>
    show (n * 2 ^ (k + 1) % 2 ^ (k + 1) == 0) = true
    rw [Nat.mul_mod_left]
    rfl

theorem isInteger_of_zero {x : Float} (h : IsZero x) : isInteger x = true := by
  obtain ⟨negative, e, hx⟩ := ofFloat?_of_zero h
  unfold isInteger
  rw [hx]
  cases e with
  | ofNat k => rfl
  | negSucc k =>
    show (0 % 2 ^ (k + 1) == 0) = true
    rw [Nat.zero_mod]
    rfl

/-- A natural number of at most fifty-three bits, with a sign, is finite and whole. -/
theorem signed_whole (b : Binary) {n : Nat} (h53 : n < 2 ^ 53) :
    (b.signed n).isFinite = true ∧ isInteger (b.signed n) = true := by
  rcases Nat.eq_zero_or_pos n with rfl | hn
  · have hzero : IsZero (b.signed 0) := by
      unfold Binary.signed
      cases b.negative with
      | true => exact ⟨.negative, rfl⟩
      | false => exact ⟨.positive, rfl⟩
    exact ⟨hzero.isFinite, isInteger_of_zero hzero⟩
  · obtain ⟨hlog, hfront⟩ := log2_front hn h53
    have hunpack : ∃ s, (b.signed n).toModel.unpack
        = .finite s (n * 2 ^ (52 - n.log2)) ((n.log2 : Int) - 52)
            (Nat.mul_pos hn (Nat.two_pow_pos _)) := by
      unfold Binary.signed
      cases b.negative with
      | false => exact ⟨.positive, unpack_ofNat hn h53⟩
      | true =>
        refine ⟨.negative, ?_⟩
        show (Float.Model.pack (Float.ofNat n).toModel.unpack.neg).unpack = _
        rw [unpack_ofNat hn h53]
        exact unpack_pack_normal _ hfront (by omega) (by omega)
    obtain ⟨s, hs⟩ := hunpack
    refine ⟨?_, isInteger_of_unpack hs (by omega)⟩
    rw [isFinite_eq, hs]
    rfl

/-- **A finite double without its fraction is finite and whole.**  Indexes are read so. -/
theorem trunc_whole {x : Float} (hx : x.isFinite = true) :
    (trunc x).isFinite = true ∧ isInteger (trunc x) = true := by
  rcases unpack_of_isFinite hx with hz | ⟨s, m, e, hm, hu⟩
  · obtain ⟨negative, e, hb⟩ := ofFloat?_of_zero hz
    unfold trunc
    rw [hb]
    cases e with
    | ofNat k => exact ⟨hx, isInteger_of_zero hz⟩
    | negSucc k => exact signed_whole _ (Nat.lt_of_le_of_lt (Nat.div_le_self 0 _) (by decide))
  · obtain ⟨negative, hb⟩ := ofFloat?_of_finite hu
    obtain ⟨h53, -, -⟩ := unpack_bounds hu
    unfold trunc
    rw [hb]
    cases e with
    | ofNat k =>
      refine ⟨hx, ?_⟩
      show isInteger x = true
      unfold isInteger
      rw [hb]
    | negSucc k =>
      exact signed_whole _ (Nat.lt_of_le_of_lt (Nat.div_le_self _ _) h53)

/-! ## Doubles with one value -/

/-- The bits of a double can be read off its exact value, so two doubles with one value are the
    same. -/
theorem eq_of_ofFloat? {x y : Float} {b : Binary} (hx : Binary.ofFloat? x = some b)
    (hy : Binary.ofFloat? y = some b) : x = y := by
  have hbits : x.toBits = y.toBits := by
    unfold Binary.ofFloat? at hx hy
    dsimp only at hx hy
    have hxlt := x.toBits.toNat_lt
    have hylt := y.toBits.toNat_lt
    apply UInt64.toNat_inj.mp
    generalize x.toBits.toNat = m at *
    generalize y.toBits.toNat = n at *
    -- a subnormal significand has at most fifty-two bits, any other has fifty-three
    split at hx
    · exact nomatch hx
    · split at hy
      · exact nomatch hy
      · split at hx <;> split at hy <;>
        · have h := (Option.some.inj hx).trans (Option.some.inj hy).symm
          rw [Binary.mk.injEq, Bool.eq_iff_iff, beq_iff_eq, beq_iff_eq] at h
          omega
  obtain ⟨⟨mx, vx⟩⟩ := x
  obtain ⟨⟨my, vy⟩⟩ := y
  cases (show mx = my from hbits)
  rfl

/-- The significand of a double is short at the least exponent only, and has fifty-three bits at any
    other. -/
theorem significand_bounds {x : Float} {b : Binary} (h : Binary.ofFloat? x = some b) :
    b.exponent = -1074 ∧ b.significand < 2 ^ 52 ∨
      2 ^ 52 ≤ b.significand ∧ b.significand < 2 ^ 53 := by
  unfold Binary.ofFloat? at h
  dsimp only at h
  split at h
  · exact nomatch h
  · split at h
    · obtain rfl := Option.some.inj h
      exact Or.inl ⟨rfl, Nat.mod_lt _ (by decide)⟩
    · obtain rfl := Option.some.inj h
      have hmod : x.toBits.toNat % 2 ^ 52 < 2 ^ 52 := Nat.mod_lt _ (by decide)
      refine Or.inr ⟨Nat.le_add_left _ _, ?_⟩
      show x.toBits.toNat % 2 ^ 52 + 2 ^ 52 < 2 ^ 53
      omega

/-- A double that is a positive natural number has a significand of fifty-three bits: those of the
number and then zeros. -/
theorem ofFloat?_of_toNat? {x : Float} {k : Nat} (h : toNat? x = some k) (hpos : 0 < k)
    (h52 : k < 2 ^ 52) :
    Binary.ofFloat? x = some ⟨false, k * 2 ^ (52 - k.log2), (k.log2 : Int) - 52⟩ := by
  unfold toNat? at h
  cases hx : Binary.ofFloat? x with
  | none => rw [hx] at h; cases h
  | some b =>
    obtain ⟨negative, significand, exponent⟩ := b
    have hbounds := significand_bounds hx
    rw [hx] at h
    dsimp only at h hbounds
    split at h
    · cases h
    · rename_i hsign
      cases exponent with
      | ofNat e =>
        have hk : significand * 2 ^ e = k := Option.some.inj h
        have hle : significand ≤ k := hk ▸ Nat.le_mul_of_pos_right _ (Nat.two_pow_pos e)
        rcases hbounds with ⟨he, -⟩ | ⟨hlow, -⟩
        · cases he
        · omega
      | negSucc e =>
        dsimp only at h
        split at h
        · rename_i hwhole
          have hk : significand = k * 2 ^ (e + 1) := by
            rw [← Option.some.inj h]
            exact (Nat.div_mul_cancel (Nat.dvd_of_mod_eq_zero hwhole)).symm
          rcases hbounds with ⟨he, hshort⟩ | ⟨hlow, hhigh⟩
          · have hlong : 2 ^ 52 ≤ significand :=
              calc 2 ^ 52 ≤ 2 ^ (e + 1) := Nat.pow_le_pow_right (by decide) (by omega)
                _ ≤ k * 2 ^ (e + 1) := Nat.le_mul_of_pos_left _ hpos
                _ = significand := hk.symm
            exact absurd hshort (Nat.not_lt.mpr hlong)
          · have hlog : significand.log2 = 52 :=
              (Nat.log2_eq_iff (by omega)).mpr ⟨hlow, hhigh⟩
            rw [hk, log2_mul_two_pow hpos] at hlog
            have hnegative : negative = false := by
              cases negative with
              | false => rfl
              | true =>
                have hne : significand ≠ 0 := by omega
                simp [hne] at hsign
            rw [hnegative, hk, show e + 1 = 52 - k.log2 from by omega,
              show Int.negSucc e = (k.log2 : Int) - 52 from by omega]
        · cases h

/-- **No two doubles are one positive natural number** below `2 ^ 52`.  Zero is the exception, since
    there are two of it. -/
theorem eq_of_toNat? {x y : Float} {k : Nat} (hx : toNat? x = some k) (hy : toNat? y = some k)
    (hpos : 0 < k) (h52 : k < 2 ^ 52) : x = y :=
  eq_of_ofFloat? (ofFloat?_of_toNat? hx hpos h52) (ofFloat?_of_toNat? hy hpos h52)

end SolidExport.Double
