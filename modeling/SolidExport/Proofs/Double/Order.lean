/-
  Comparing doubles that are no NaN.

  Two doubles that are numbers can be compared, so not below is at least (`le_of_not_lt`) and not at
  least is below (`lt_of_not_le`).  What lies between zero and a number is finite.

  No decimal is read as a NaN (`isNaN_toFloat`): its double is rounded from an exact value, and past
  the range it is an infinity.
-/
import SolidExport.Proofs.Double.Integer

namespace SolidExport.Double

open Float.Model (Format totalExponent UnpackedFloat)
open Float.Model.UnpackedFloat

/-! ## Comparing -/

/-- Comparing two numbers the other way round gives the opposite answer, and none where there was
    none. -/
theorem compare_swap (a b : UnpackedFloat) : b.compare a = (a.compare b).map Ordering.swap := by
  cases a with
  | notANumber => cases b <;> rfl
  | infinity s =>
    cases b with
    | infinity t => cases s <;> cases t <;> rfl
    | _ => cases s <;> rfl
  | zero s =>
    cases b with
    | infinity t => cases t <;> rfl
    | finite t => cases t <;> rfl
    | _ => rfl
  | finite s m e hm =>
    cases b with
    | infinity t => cases s <;> cases t <;> rfl
    | finite t m' e' hm' =>
      have hswap : (compare e' e).then (compare m' m)
          = ((compare e e').then (compare m m')).swap := by
        rw [Ordering.swap_then, Int.compare_swap, Nat.compare_swap]
      cases s <;> cases t
      · show some ((compare e' e).then (compare m' m)).swap = some (Ordering.swap _)
        rw [hswap]
      · rfl
      · rfl
      · show some ((compare e' e).then (compare m' m)) = some (Ordering.swap _)
        rw [hswap]
    | _ => cases s <;> rfl

/-- Two numbers can be compared, if neither is a NaN. -/
theorem compare_ne_none {a b : UnpackedFloat} (ha : a.isNaN = false) (hb : b.isNaN = false) :
    a.compare b ≠ none := by
  cases a with
  | notANumber => exact nomatch ha
  | infinity s =>
    cases b with
    | notANumber => exact nomatch hb
    | infinity t => cases s <;> cases t <;> exact Option.some_ne_none _
    | _ => cases s <;> exact Option.some_ne_none _
  | zero s =>
    cases b with
    | notANumber => exact nomatch hb
    | zero t => exact Option.some_ne_none _
    | infinity t => cases t <;> exact Option.some_ne_none _
    | finite t => cases t <;> exact Option.some_ne_none _
  | finite s =>
    cases b with
    | notANumber => exact nomatch hb
    | zero t => cases s <;> exact Option.some_ne_none _
    | infinity t => cases s <;> cases t <;> exact Option.some_ne_none _
    | finite t => cases s <;> cases t <;> exact Option.some_ne_none _

section

variable {x y : Float}

theorem lt_iff : x < y ↔ x.toModel.unpack.compare y.toModel.unpack = some .lt := by
  show decide (x.toModel < y.toModel) = true ↔ _
  rw [decide_eq_true_iff]
  show (x.toModel.unpack.compare y.toModel.unpack == some .lt) = true ↔ _
  rw [beq_iff_eq]

theorem le_iff : x ≤ y ↔ (x.toModel.unpack.compare y.toModel.unpack).any (·.isLE) = true := by
  show decide (x.toModel ≤ y.toModel) = true ↔ _
  rw [decide_eq_true_iff]
  rfl

/-- Of two numbers that are no NaN, if one is not below the other, it is at least the other. -/
theorem le_of_not_lt (hx : x.isNaN = false) (hy : y.isNaN = false) (h : ¬ x < y) : y ≤ x := by
  rw [lt_iff] at h
  rw [le_iff, compare_swap x.toModel.unpack]
  have hsome := compare_ne_none (a := x.toModel.unpack) (b := y.toModel.unpack) hx hy
  cases hc : x.toModel.unpack.compare y.toModel.unpack with
  | none => exact absurd hc hsome
  | some order =>
    cases order with
    | lt => exact absurd hc h
    | eq => rfl
    | gt => rfl

/-- Of two numbers that are no NaN, if one is not at most the other, it is above the other. -/
theorem lt_of_not_le (hx : x.isNaN = false) (hy : y.isNaN = false) (h : ¬ y ≤ x) : x < y := by
  rw [le_iff, compare_swap x.toModel.unpack] at h
  rw [lt_iff]
  have hsome := compare_ne_none (a := x.toModel.unpack) (b := y.toModel.unpack) hx hy
  cases hc : x.toModel.unpack.compare y.toModel.unpack with
  | none => exact absurd hc hsome
  | some order =>
    rw [hc] at h
    cases order with
    | lt => rfl
    | eq => exact absurd rfl h
    | gt => exact absurd rfl h

/-- What is at least zero and below something is finite, whatever that is: neither an infinity nor a
    NaN is in between. -/
theorem isFinite_of_between (hlo : 0.0 ≤ x) (hhi : x < y) : x.isFinite = true := by
  have hzero : (0.0 : Float).toModel.unpack = .zero .positive := rfl
  rw [le_iff, hzero] at hlo
  rw [lt_iff] at hhi
  rw [isFinite_eq]
  cases hu : x.toModel.unpack with
  | notANumber => rw [hu] at hlo; exact nomatch hlo
  | zero s => rfl
  | finite s m e hm => rfl
  | infinity s =>
    rw [hu] at hlo hhi
    cases s with
    | negative => exact nomatch hlo
    | positive =>
      cases hv : y.toModel.unpack with
      | infinity t => rw [hv] at hhi; cases t <;> exact nomatch hhi
      | notANumber => rw [hv] at hhi; exact nomatch hhi
      | _ => rw [hv] at hhi; exact nomatch hhi

end

/-! ## Numbers that are read -/

theorem isNaN_eq (x : Float) : x.isNaN = x.toModel.unpack.isNaN := rfl

/-- Packing makes no NaN of a number that is none. -/
theorem isNaN_unpack_pack {u : UnpackedFloat} (h : u.isNaN = false) :
    (Float.Model.pack u).unpack.isNaN = false := by
  cases u with
  | notANumber => exact nomatch h
  | infinity s => cases s <;> rfl
  | zero s => cases s <;> rfl
  | finite s m e hm =>
    by_cases he : e ≤ 971
    · have hfinite : (Float.Model.pack (.finite s m e hm)).unpack.isFinite = true :=
        isFinite_unpack_pack he
      cases hu : (Float.Model.pack (.finite s m e hm)).unpack with
      | notANumber => rw [hu] at hfinite; exact nomatch hfinite
      | _ => rfl
    · -- past the range there is an infinity
      have hpast : 2 ^ Format.binary64.exponentBits
          ≤ (e + Format.binary64.exponentBias + Format.binary64.mantissaBitsWithoutImplicit).toNat
            + 1 := by
        show 2048 ≤ (e + 1023 + 52).toNat + 1
        omega
      show (UnpackedFloat.unpack Format.binary64
        (UnpackedFloat.pack Format.binary64 (.finite s m e hm))).isNaN = false
      unfold UnpackedFloat.pack
      rw [if_pos hpast]
      cases s <;> rfl

theorem isNaN_roundWithAccuracy (s : Sign) (m : Nat) (e : Int) (a : Accuracy) :
    (roundWithAccuracy Format.binary64 s m e a).isNaN = false := by
  rcases roundWithAccuracy_cases s m e a with hz | ⟨m', e', hm', hr, -, -⟩
  · rw [hz]
    rfl
  · rw [hr]
    rfl

theorem isNaN_neg {x : Float} (hx : x.isNaN = false) : (-x).isNaN = false := by
  refine isNaN_unpack_pack ?_
  rw [isNaN_eq] at hx
  cases hu : x.toModel.unpack with
  | notANumber => rw [hu] at hx; exact nomatch hx
  | _ => rfl

/-- `hasSignificand u` — whether the unpacked number `u` is neither zero nor infinite, nor a NaN. -/
def hasSignificand : UnpackedFloat → Bool
  | .finite .. => true
  | _ => false

/-- A number times or over one that is neither zero nor infinite is a number again. -/
theorem isNaN_mul_div {x y : Float} (hx : x.isNaN = false)
    (hy : hasSignificand y.toModel.unpack = true) :
    (x * y).isNaN = false ∧ (x / y).isNaN = false := by
  rw [isNaN_eq] at hx
  cases hv : y.toModel.unpack with
  | finite t m' e' hm' =>
    refine ⟨isNaN_unpack_pack ?_, isNaN_unpack_pack ?_⟩
    all_goals
      rw [hv]
      cases hu : x.toModel.unpack with
      | notANumber => rw [hu] at hx; exact nomatch hx
      | infinity s => rfl
      | zero s => rfl
      | finite s m e hm => exact isNaN_roundWithAccuracy _ _ _ _
  | _ => rw [hv] at hy; exact nomatch hy

theorem isNaN_toFloat_word (n : UInt64) : n.toFloat.isNaN = false := by
  refine isNaN_unpack_pack ?_
  show (UnpackedFloat.normalize Format.binary64 (n.toNat : Int) 0 .positive).isNaN = false
  unfold UnpackedFloat.normalize
  split
  · exact isNaN_roundWithAccuracy _ _ _ _
  · rfl
  · exact isNaN_roundWithAccuracy _ _ _ _

theorem hasSignificand_powers : ∀ e : Fin 23,
    (Float.exactlyRepresentablePowersOfTen[e.val]?).any (fun y => hasSignificand y.toModel.unpack)
      = true := by
  decide

/-- Digits times or over a power of ten give a number, be it infinite or zero. -/
theorem isNaN_ofScientific (m : Nat) (s : Bool) (e : Nat) :
    (Float.ofScientific m s e).isNaN = false := by
  unfold Float.ofScientific
  split
  · rename_i hfast
    have hsize : e < Float.exactlyRepresentablePowersOfTen.size := by
      have : Float.exactlyRepresentablePowersOfTen.size = 23 := rfl
      omega
    have hpower := hasSignificand_powers ⟨e, by omega⟩
    rw [Array.getElem?_eq_getElem hsize] at hpower
    obtain ⟨hmul, hdiv⟩ := isNaN_mul_div (isNaN_toFloat_word m.toUInt64) hpower
    split
    · exact hdiv
    · exact hmul
  · refine isNaN_unpack_pack ?_
    generalize (if s = true then Int.negOfNat e else Int.ofNat e) = exponent
    unfold UnpackedFloat.ofScientific
    by_cases hm : m = 0
    · rw [dif_pos hm]
      rfl
    · rw [dif_neg hm]
      refine iteInduction (motive := (UnpackedFloat.isNaN · = false)) (fun _ => rfl) fun _ => ?_
      refine iteInduction (motive := (UnpackedFloat.isNaN · = false)) (fun _ => rfl) fun _ => ?_
      exact iteInduction (motive := (UnpackedFloat.isNaN · = false))
        (fun _ => isNaN_roundWithAccuracy _ _ _ _) fun _ => isNaN_roundWithAccuracy _ _ _ _

theorem isNaN_ofNat (n : Nat) : (Float.ofNat n).isNaN = false := isNaN_ofScientific n false 0

/-- **No decimal is read as a NaN.**  So none gets in by a literal. -/
theorem isNaN_toFloat (d : Decimal) : d.toFloat.isNaN = false := by
  unfold Decimal.toFloat
  split
  · rfl
  · split
    · rfl
    · split
      · rfl
      · split
        · exact isNaN_ofScientific _ _ _
        · exact isNaN_ofScientific _ _ _

/-! ## Whole numbers in a range -/

/-- What is not finite has no exact value, so all roundings leave it as it is. -/
theorem ofFloat?_of_not_finite {x : Float} (hx : x.isFinite = false) : Binary.ofFloat? x = none := by
  have hunpacks := unpacks x.toModel.toBits.toBitVec
  have hbits : (UnpackedFloat.unpack Format.binary64 x.toModel.toBits.toBitVec).isFinite = false := hx
  rw [ofFloat?_eq]
  generalize x.toModel.toBits.toBitVec = b at hbits hunpacks ⊢
  generalize UnpackedFloat.unpack Format.binary64 b = u at hbits hunpacks
  dsimp only
  cases hunpacks with
  | infinity _ hones => exact if_pos (by rw [hones]; rfl)
  | notANumber hones => exact if_pos (by rw [hones]; rfl)
  | zero => cases hbits
  | subnormal => cases hbits
  | normal => cases hbits

/-- Cutting off the fraction makes no NaN: it changes what is finite only. -/
theorem isNaN_trunc {x : Float} (hx : x.isNaN = false) : (trunc x).isNaN = false := by
  cases hf : x.isFinite with
  | true =>
    have hfinite := (trunc_whole hf).1
    rw [isFinite_eq] at hfinite
    rw [isNaN_eq]
    cases hu : (trunc x).toModel.unpack with
    | notANumber => rw [hu] at hfinite; exact nomatch hfinite
    | _ => rfl
  | false =>
    unfold trunc
    rw [ofFloat?_of_not_finite hf]
    exact hx

/-- **An index that was not refused.**  A number without its fraction that is neither negative nor
    at least `y` is a whole number from zero to below `y`. -/
theorem trunc_in_range {x y : Float} (hx : x.isNaN = false) (hy : y.isNaN = false)
    (h : ¬ (trunc x < 0.0 ∨ y ≤ trunc x)) :
    0.0 ≤ trunc x ∧ trunc x < y ∧ isInteger (trunc x) = true := by
  have hnumber := isNaN_trunc hx
  have hlo : 0.0 ≤ trunc x := le_of_not_lt hnumber rfl fun hneg => h (Or.inl hneg)
  have hhi : trunc x < y := lt_of_not_le hnumber hy fun hge => h (Or.inr hge)
  refine ⟨hlo, hhi, ?_⟩
  cases hf : x.isFinite with
  | true => exact (trunc_whole hf).2
  | false =>
    have hfinite := isFinite_of_between hlo hhi
    have hsame : trunc x = x := by
      unfold trunc
      rw [ofFloat?_of_not_finite hf]
    rw [hsame, hf] at hfinite
    exact nomatch hfinite

end SolidExport.Double
