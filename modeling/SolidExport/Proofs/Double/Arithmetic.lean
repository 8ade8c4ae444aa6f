/-
  Arithmetic on doubles.

  Products, quotients, sums and natural numbers are the exact results, rounded (`rounds_mul`,
  `rounds_div`, `rounds_add`, `rounds_ofNat`): the double has the rounded value, or is infinite where
  that is past the range.  So the operations keep the order of exact results (`Rounds.le`).
-/
import SolidExport.Proofs.Double.Rounding

namespace SolidExport.Double

open Float.Model (Format totalExponent UnpackedFloat)
open Float.Model.UnpackedFloat

/-- `Rounds x v` — the double `x` is the nearest to `v`, a number that is not negative: it has the
    rounded value, or is infinite where that is past the range. -/
def Rounds (x : Float) (v : ℚ) : Prop :=
  (HasValue x (rounded v) ∧ rounded v < 2 ^ 1024) ∨ (IsInfinite x ∧ 2 ^ 1024 ≤ rounded v)

section

variable {x y : Float} {v w : ℚ}

/-- A number that fits is within the range of doubles exactly if its exponent is. -/
theorem Fits.lt_range_iff {m : ℕ} {e : ℤ} (h : Fits m e) :
    (m : ℚ) * 2 ^ e < 2 ^ 1024 ↔ e ≤ 971 := by
  have hrange : (2 : ℚ) ^ 1024 = (2 ^ 52 : ℕ) * 2 ^ (972 : ℤ) := by
    rw [Nat.cast_pow, Nat.cast_ofNat, ← zpow_natCast, ← zpow_natCast, ← zpow_add₀ two_ne_zero]
    rfl
  rw [hrange]
  constructor
  · intro hlt
    by_contra hge
    have hfull : 2 ^ 52 ≤ m := h.full.resolve_right (by omega)
    refine absurd hlt (not_lt.mpr ?_)
    gcongr
    · norm_num
    · omega
  · intro he
    exact h.lt_of_exponent_lt ⟨by decide, by decide, Or.inl le_rfl⟩ (by omega)

theorem HasValue.lt_range (h : HasValue x v) : v < 2 ^ 1024 := by
  cases h with
  | zero h => positivity
  | finite h =>
    obtain ⟨hfits, hmost⟩ := fits_of_unpack h
    exact hfits.lt_range_iff.mpr hmost

/-- A double is the one nearest to its own value. -/
theorem HasValue.rounds (h : HasValue x v) : Rounds x v := by
  left
  rw [h.rounded_eq]
  exact ⟨h, h.lt_range⟩

theorem IsZero.rounds (h : IsZero x) : Rounds x 0 := by
  obtain ⟨s, hs⟩ := h
  exact (HasValue.zero hs).rounds

theorem rounds_of_unpack {m : ℕ} {e : ℤ} {a : Accuracy} (hv : 0 < v)
    (h : StandsFor (.ofMantissaAndAccuracy m a) (v / 2 ^ e)) (he : e ≤ grid v)
    (hx : x.toModel.unpack
      = (Float.Model.pack (roundWithAccuracy Format.binary64 .positive m e a)).unpack) :
    Rounds x v := by
  rcases roundWithAccuracy_rounded (s := .positive) hv h he with
    ⟨h0, hr⟩ | ⟨m', e', hm', hr, hfits, hvalue⟩
  · rw [hr, unpack_pack_zero] at hx
    left
    rw [h0]
    exact ⟨.zero hx, by positivity⟩
  · rw [hr] at hx
    unfold Rounds
    rw [hvalue, hfits.lt_range_iff]
    by_cases hrange : e' ≤ 971
    · rw [unpack_pack_of_fits hm' hfits hrange] at hx
      exact Or.inl ⟨.finite hx, hrange⟩
    · rw [unpack_pack_overflow hm' (not_le.mp hrange)] at hx
      exact Or.inr ⟨hx, not_lt.mp fun hlt => hrange (hfits.lt_range_iff.mp hlt)⟩

/-- An exact significand `n` has bits enough to be rounded if it is full, or if its last bit is
    below the finest grid. -/
theorem le_grid_of_full {n : ℕ} {e : ℤ} (hn : 0 < n) (he : 2 ^ 52 ≤ n ∨ e ≤ -1074) :
    e ≤ grid (n * 2 ^ e) := by
  unfold grid
  rw [log_mul_zpow hn le_rfl (lt_add_one _) e]
  rcases he with hfull | hfine
  · have hlog : 52 ≤ n.log2 := (Nat.le_log2 hn.ne').mpr hfull
    omega
  · omega

theorem rounds_exact {n : ℕ} {e : ℤ} (hn : 0 < n) (he : 2 ^ 52 ≤ n ∨ e ≤ -1074)
    (hx : x.toModel.unpack
      = (Float.Model.pack (roundWithAccuracy Format.binary64 .positive n e .exact)).unpack) :
    Rounds x (n * 2 ^ e) :=
  rounds_of_unpack (by positivity) (standsFor_scaled n e) (le_grid_of_full hn he) hx

/-- **A product is the rounded product of the values:** it is computed exactly and rounded once. -/
theorem rounds_mul (hx : HasValue x v) (hy : HasValue y w) : Rounds (x * y) (v * w) := by
  have hmul : (x * y).toModel.unpack = (Float.Model.pack (UnpackedFloat.mul Format.binary64
    x.toModel.unpack y.toModel.unpack)).unpack := rfl
  cases hx with
  | zero hx =>
    rw [zero_mul]
    exact (IsZero.mul ⟨_, hx⟩ hy.isFinite).rounds
  | @finite m e hm hx =>
    cases hy with
    | zero hy =>
      rw [hx, hy] at hmul
      rw [mul_zero]
      exact IsZero.rounds ⟨_, hmul.trans (unpack_pack_zero _)⟩
    | @finite m' e' hm' hy =>
      obtain ⟨⟨-, -, hfull⟩, -⟩ := fits_of_unpack hx
      obtain ⟨⟨-, -, hfull'⟩, -⟩ := fits_of_unpack hy
      rw [hx, hy] at hmul
      have hvalue : (m : ℚ) * 2 ^ e * (m' * 2 ^ e') = (m * m' : ℕ) * 2 ^ (e + e') := by
        rw [zpow_add₀ two_ne_zero]
        push_cast
        ring
      rw [hvalue]
      refine rounds_exact (Nat.mul_pos hm hm') ?_ hmul
      rcases hfull with hfull | rfl
      · exact Or.inl (hfull.trans (Nat.le_mul_of_pos_right m hm'))
      · rcases hfull' with hfull' | rfl
        · exact Or.inl (hfull'.trans (Nat.le_mul_of_pos_left m' hm))
        · exact Or.inr (by decide)

/-- A quotient has as many bits as those of its parts leave it, or one fewer. -/
theorem log_div_ge (hv : 0 < v) (hw : 0 < w) :
    Int.log 2 v - Int.log 2 w - 1 ≤ Int.log 2 (v / w) := by
  have hle : ((2 : ℕ) : ℚ) ^ Int.log 2 v ≤ v := Int.zpow_log_le_self (by norm_num) hv
  have hlt : w < ((2 : ℕ) : ℚ) ^ (Int.log 2 w + 1) := Int.lt_zpow_succ_log_self (by norm_num) w
  rw [← Int.zpow_le_iff_le_log (by norm_num) (by positivity), le_div_iff₀ hw]
  calc ((2 : ℕ) : ℚ) ^ (Int.log 2 v - Int.log 2 w - 1) * w
      ≤ (2 : ℕ) ^ (Int.log 2 v - Int.log 2 w - 1) * (2 : ℕ) ^ (Int.log 2 w + 1) := by gcongr
    _ = (2 : ℕ) ^ Int.log 2 v := by
      rw [← zpow_add₀ (by norm_num)]
      congr 1
      omega
    _ ≤ v := hle

/-- What a division hands to the rounding: a quotient with bits enough, and what is left over said
    by two bits. -/
theorem div_finite (s t : Sign) {m m' : ℕ} (e e' : ℤ) (hm : 0 < m) (hm' : 0 < m') :
    ∃ q k a, UnpackedFloat.div Format.binary64 (.finite s m e hm) (.finite t m' e' hm')
        = roundWithAccuracy Format.binary64 (s / t) q k a ∧
      StandsFor (.ofMantissaAndAccuracy q a) ((m : ℚ) * 2 ^ e / (m' * 2 ^ e') / 2 ^ k) ∧
      k ≤ grid ((m : ℚ) * 2 ^ e / (m' * 2 ^ e')) := by
  -- the exponent that the quotient is computed for, and how far the dividend is moved for it
  generalize htarget : min (e - e')
    (Format.binary64.targetExponent (totalExponent m e - totalExponent m' e')) = target
  generalize hshift : (e - e' - target).toNat = shift
  refine ⟨m * 2 ^ shift / m', target, accuracyOfFraction (m * 2 ^ shift % m') m', ?_, ?_, ?_⟩
  · rw [← hshift, ← htarget, ← Nat.shiftLeft_eq]
    rfl
  · have hscaled : (m : ℚ) * 2 ^ e / (m' * 2 ^ e') / 2 ^ target = (m * 2 ^ shift : ℕ) / m' := by
      rw [show e = shift + e' + target by omega, zpow_add₀ two_ne_zero, zpow_add₀ two_ne_zero,
        zpow_natCast, Nat.cast_mul, Nat.cast_pow, Nat.cast_ofNat]
      field_simp
    rw [hscaled]
    exact standsFor_quotient (m * 2 ^ shift) hm'
  · have hlog := log_div_ge (v := m * 2 ^ e) (w := m' * 2 ^ e') (by positivity) (by positivity)
    rw [log_mul_zpow hm le_rfl (lt_add_one _), log_mul_zpow hm' le_rfl (lt_add_one _)] at hlog
    rw [← htarget, binary64_targetExponent]
    unfold totalExponent grid
    omega

/-- **A quotient is the rounded quotient of the values**, for a divisor that is not zero. -/
theorem rounds_div (hx : HasValue x v) (hy : HasValue y w) (hw : 0 < w) :
    Rounds (x / y) (v / w) := by
  have hdiv : (x / y).toModel.unpack = (Float.Model.pack (UnpackedFloat.div Format.binary64
    x.toModel.unpack y.toModel.unpack)).unpack := rfl
  cases hy with
  | zero hy => exact absurd hw (lt_irrefl 0)
  | @finite m' e' hm' hy =>
    cases hx with
    | zero hx =>
      rw [hx, hy] at hdiv
      rw [zero_div]
      exact IsZero.rounds ⟨_, hdiv.trans (unpack_pack_zero _)⟩
    | @finite m e hm hx =>
      obtain ⟨q, k, a, hround, hstands, hk⟩ := div_finite .positive .positive e e' hm hm'
      rw [hx, hy, hround] at hdiv
      exact rounds_of_unpack (by positivity) hstands hk hdiv

/-- What is rounded from an exact sum of `n` units is the double nearest to it. -/
theorem rounds_round {n : ℕ} {e : ℤ} (hn : 0 < n)
    (hx : x.toModel.unpack
      = (Float.Model.pack (UnpackedFloat.round Format.binary64 .positive n e)).unpack) :
    Rounds x (n * 2 ^ e) := by
  generalize hshift : (e - Format.binary64.targetExponent (totalExponent n e)).toNat = shift
  have hround : UnpackedFloat.round Format.binary64 .positive n e
      = roundWithAccuracy Format.binary64 .positive (n * 2 ^ shift) (e - shift) .exact := by
    rw [← hshift, ← Nat.shiftLeft_eq]
    rfl
  have hvalue : (n : ℚ) * 2 ^ e = (n * 2 ^ shift : ℕ) * 2 ^ (e - shift) := by
    rw [zpow_sub₀ two_ne_zero, zpow_natCast]
    push_cast
    field_simp
  rw [hround] at hx
  rw [hvalue]
  have hscaled : 0 < n * 2 ^ shift := by positivity
  refine rounds_of_unpack (by positivity) (standsFor_scaled _ _) ?_ hx
  rw [binary64_targetExponent] at hshift
  unfold totalExponent at hshift
  unfold grid
  rw [log_mul_zpow hscaled le_rfl (lt_add_one _), log2_mul_two_pow hn]
  omega

/-- **A sum is the rounded sum of the values:** it is computed exactly and rounded once. -/
theorem rounds_add (hx : HasValue x v) (hy : HasValue y w) : Rounds (x + y) (v + w) := by
  have hadd : (x + y).toModel.unpack = (Float.Model.pack (UnpackedFloat.add Format.binary64
    x.toModel.unpack y.toModel.unpack)).unpack := rfl
  cases hx with
  | zero hx =>
    cases hy with
    | zero hy =>
      rw [zero_add]
      exact (IsZero.add ⟨_, hx⟩ ⟨_, hy⟩).rounds
    | finite hy =>
      obtain ⟨hfits, hmost⟩ := fits_of_unpack hy
      rw [hx, hy] at hadd
      rw [zero_add]
      exact (HasValue.finite (hadd.trans (unpack_pack_of_fits _ hfits hmost))).rounds
  | @finite m e hm hx =>
    cases hy with
    | zero hy =>
      obtain ⟨hfits, hmost⟩ := fits_of_unpack hx
      rw [hx, hy] at hadd
      rw [add_zero]
      exact (HasValue.finite (hadd.trans (unpack_pack_of_fits _ hfits hmost))).rounds
    | @finite m' e' hm' hy =>
      -- both significands are moved to the lower exponent
      generalize hi : (e - min e e').toNat = i
      generalize hj : (e' - min e e').toNat = j
      have hsum : UnpackedFloat.add Format.binary64 (.finite .positive m e hm)
          (.finite .positive m' e' hm')
          = UnpackedFloat.round Format.binary64 .positive (m * 2 ^ i + m' * 2 ^ j) (min e e') := by
        have hpos : (0 : ℤ) < ((m * 2 ^ i + m' * 2 ^ j : ℕ) : ℤ) := by positivity
        show UnpackedFloat.normalize Format.binary64 (((m <<< (e - min e e').toNat : ℕ) : ℤ)
          + ((m' <<< (e' - min e e').toNat : ℕ) : ℤ)) (min e e') .positive = _
        rw [hi, hj, Nat.shiftLeft_eq, Nat.shiftLeft_eq, ← Nat.cast_add]
        unfold UnpackedFloat.normalize
        rw [Int.compare_eq_gt.mpr hpos]
        show UnpackedFloat.round _ _ (Int.toNat _) _ = _
        rw [Int.toNat_natCast]
      have hvalue : (m : ℚ) * 2 ^ e + m' * 2 ^ e' = (m * 2 ^ i + m' * 2 ^ j : ℕ) * 2 ^ min e e' := by
        have he : (2 : ℚ) ^ e = 2 ^ i * 2 ^ min e e' := by
          rw [← zpow_natCast, ← zpow_add₀ two_ne_zero]
          congr 1
          omega
        have he' : (2 : ℚ) ^ e' = 2 ^ j * 2 ^ min e e' := by
          rw [← zpow_natCast, ← zpow_add₀ two_ne_zero]
          congr 1
          omega
        rw [he, he']
        push_cast
        ring
      rw [hx, hy, hsum] at hadd
      rw [hvalue]
      exact rounds_round (by positivity) hadd

/-- **The double of a natural number is the nearest one**, however many bits it has. -/
theorem rounds_ofNat (n : ℕ) : Rounds (Float.ofNat n) n := by
  by_cases h53 : n < 2 ^ 53
  · exact (hasValue_ofNat h53.le).rounds
  · have hn : 0 < n := by omega
    -- fifty-three zeros are put behind the number before it is rounded
    have hround : UnpackedFloat.ofScientific Format.binary64 n 0
        = roundWithAccuracy Format.binary64 .positive (n * 2 ^ 53) (-53) .exact := by
      have hbits : ¬ (0 : ℤ) < -((2 ^ Format.binary64.exponentBits : ℤ) + n.log2) := by
        have hpos : (0 : ℤ) ≤ 2 ^ Format.binary64.exponentBits := by positivity
        omega
      unfold UnpackedFloat.ofScientific
      rw [dif_neg hn.ne', if_neg (by decide), if_neg hbits, if_pos le_rfl, ← Nat.shiftLeft_eq]
      show roundWithAccuracy Format.binary64 .positive (n <<< 53 * 1) (-53 + 0) .exact = _
      rw [Nat.mul_one]
      rfl
    have hunpack : (Float.ofNat n).toModel.unpack
        = (Float.Model.pack (UnpackedFloat.ofScientific Format.binary64 n 0)).unpack := by
      show (Float.ofScientific n false 0).toModel.unpack = _
      unfold Float.ofScientific
      rw [dif_neg fun h => h53 h.1]
      rfl
    have hvalue : ((n * 2 ^ 53 : ℕ) : ℚ) * 2 ^ (-53 : ℤ) = n := by
      rw [Nat.cast_mul, mul_assoc]
      norm_num
    rw [hround] at hunpack
    rw [← hvalue]
    exact rounds_exact (by positivity) (Or.inl (by omega)) hunpack

/-- A number that some double `y` is the value of is computed exactly. -/
theorem Rounds.exact (hx : Rounds x v) (hy : HasValue y v) : HasValue x v := by
  unfold Rounds at hx
  rw [hy.rounded_eq] at hx
  rcases hx with ⟨hx, -⟩ | ⟨-, hge⟩
  · exact hx
  · exact absurd hy.lt_range hge.not_gt

theorem Rounds.isNaN (hx : Rounds x v) : x.isNaN = false := by
  rcases hx with ⟨hx, -⟩ | ⟨hx, -⟩
  · exact hx.isNaN
  · exact hx.isNaN

/-- **The order of numbers is that of the doubles nearest to them**, where doubles may be equal
    though the numbers are not. -/
theorem Rounds.le (hx : Rounds x v) (hy : Rounds y w) (hv : 0 ≤ v) (h : v ≤ w) : x ≤ y := by
  have hmono := rounded_mono hv h
  rcases hy with ⟨hy, hlt⟩ | ⟨hy, -⟩
  · rcases hx with ⟨hx, -⟩ | ⟨-, hge⟩
    · exact (hx.le_iff hy).mpr hmono
    · exact absurd (hge.trans hmono) (not_le.mpr hlt)
  · exact hy.le hx.isNaN

end

end SolidExport.Double
