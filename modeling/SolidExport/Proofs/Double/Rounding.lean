/-
  Rounding exact values to doubles.

  A positive rational number is rounded to the nearest multiple of a power of two that leaves it
  fifty-three bits, or of the least power of two (`rounded`).  Rounding keeps the order
  (`rounded_mono`) and what is a double already (`HasValue.rounded_eq`).

  An operation hands over a significand with two bits for what lies behind it.  These say enough
  about the exact number (`StandsFor`), also after shifts, so the result has the rounded value
  (`roundWithAccuracy_rounded`).
-/
import Mathlib.Data.Int.Log
import SolidExport.Proofs.Double.Value

namespace SolidExport.Double

open Float.Model (Format totalExponent UnpackedFloat)
open Float.Model.UnpackedFloat

/-! ## The nearest natural number -/

/-- `nearest t` — the natural number nearest to `t`; of two the even one. -/
def nearest (t : ℚ) : ℕ :=
  if t - ⌊t⌋₊ < 1 / 2 then ⌊t⌋₊
  else if 1 / 2 < t - ⌊t⌋₊ then ⌊t⌋₊ + 1
  else ⌊t⌋₊ + ⌊t⌋₊ % 2

theorem floor_le_nearest (t : ℚ) : ⌊t⌋₊ ≤ nearest t := by
  unfold nearest
  split_ifs <;> omega

theorem nearest_le_floor_add_one (t : ℚ) : nearest t ≤ ⌊t⌋₊ + 1 := by
  unfold nearest
  split_ifs <;> omega

@[simp] theorem nearest_natCast (n : ℕ) : nearest n = n := by
  unfold nearest
  rw [Nat.floor_natCast, sub_self, if_pos (by norm_num)]

theorem nearest_mono : Monotone nearest := by
  intro t u h
  rcases (Nat.floor_mono h).lt_or_eq with hlt | heq
  · exact (nearest_le_floor_add_one t).trans (Nat.le_trans hlt (floor_le_nearest u))
  · -- between the same two naturals the distance to the lower one decides
    unfold nearest
    rw [heq]
    split_ifs <;> first | omega | linarith

/-- What is below a natural number `n` is not rounded past it. -/
theorem nearest_le_of_lt {t : ℚ} {n : ℕ} (h : t < n) (hn : 0 < n) : nearest t ≤ n := by
  have hfloor : ⌊t⌋₊ < n := (Nat.floor_lt' hn.ne').mpr h
  exact (nearest_le_floor_add_one t).trans hfloor

/-- What is at least a natural number `n` is rounded to `n` or above. -/
theorem le_nearest_of_le {t : ℚ} {n : ℕ} (h : (n : ℚ) ≤ t) : n ≤ nearest t :=
  (Nat.le_floor h).trans (floor_le_nearest t)

/-! ## Significands with the bits behind them -/

/-- `StandsFor em t` — what a significand with a round bit and a sticky bit says of the number `t`
    that it is cut from: whether the rest is at least a half, and whether it is none or just the
    half. -/
structure StandsFor (em : ExtendedMantissa) (t : ℚ) : Prop where
  le : (em.mantissa : ℚ) ≤ t
  lt : t < em.mantissa + 1
  round : em.roundBit = true ↔ 1 / 2 ≤ t - em.mantissa
  sticky : em.stickyBit = false ↔ t - em.mantissa = 0 ∨ t - em.mantissa = 1 / 2

section

variable {em : ExtendedMantissa} {t : ℚ}

theorem StandsFor.floor_eq (h : StandsFor em t) : ⌊t⌋₊ = em.mantissa :=
  (Nat.floor_eq_iff ((Nat.cast_nonneg _).trans h.le)).mpr ⟨h.le, h.lt⟩

/-- A bit moves from the significand into the rest, and the number it stands for is halved. -/
theorem StandsFor.shiftRightOne (h : StandsFor em t) : StandsFor em.shiftRightOne (t / 2) := by
  obtain ⟨m, r, s⟩ := em
  obtain ⟨hle, hlt, hround, hsticky⟩ := h
  dsimp only at hle hlt hround hsticky
  have hhalf : (m : ℚ) = 2 * (m / 2 : ℕ) + (m % 2 : ℕ) := by
    exact_mod_cast (Nat.div_add_mod m 2).symm
  have hrest : (r || s) = false ↔ t - m = 0 := by
    rw [Bool.or_eq_false_iff, hsticky, ← Bool.not_eq_true, hround]
    constructor
    · rintro ⟨hr, h0 | h1⟩
      · exact h0
      · exact absurd h1.ge hr
    · intro h0
      exact ⟨by rw [h0]; norm_num, Or.inl h0⟩
  unfold ExtendedMantissa.shiftRightOne
  rcases Nat.mod_two_eq_zero_or_one m with hbit | hbit
  · rw [hbit, Nat.cast_zero, add_zero] at hhalf
    refine ⟨?_, ?_, ?_, hrest.trans ?_⟩ <;> dsimp only
    · linarith
    · linarith
    · rw [hbit]
      exact iff_of_false nofun (by linarith)
    · constructor
      · intro h0
        left
        linarith
      · rintro (h0 | h1) <;> linarith
  · rw [hbit, Nat.cast_one] at hhalf
    refine ⟨?_, ?_, ?_, hrest.trans ?_⟩ <;> dsimp only
    · linarith
    · linarith
    · rw [hbit]
      exact iff_of_true rfl (by linarith)
    · constructor
      · intro h0
        right
        linarith
      · rintro (h0 | h1) <;> linarith

/-- **Shifting divides:** by `k` bits, the number that a significand stands for is divided by
    `2 ^ k`, and nothing of it is lost to the two bits. -/
theorem StandsFor.shiftRight (h : StandsFor em t) (k : ℕ) : StandsFor (em >>> k) (t / 2 ^ k) := by
  induction k with
  | zero =>
    rw [pow_zero, div_one]
    exact h
  | succ k ih =>
    show StandsFor (em >>> k).shiftRightOne _
    rw [pow_succ, ← div_div]
    exact ih.shiftRightOne

/-- Rounding goes by the two bits, and they say enough of the rest to find the nearest number, ties
    included. -/
theorem StandsFor.roundedMantissa_eq (h : StandsFor em t) : em.roundedMantissa = nearest t := by
  have hfloor := h.floor_eq
  obtain ⟨m, r, s⟩ := em
  obtain ⟨hle, hlt, hround, hsticky⟩ := h
  dsimp only at hle hlt hround hsticky hfloor
  unfold nearest
  rw [hfloor]
  cases r with
  | false =>
    have hlow : t - m < 1 / 2 := not_le.mp fun hge => Bool.false_ne_true (hround.mpr hge)
    rw [if_pos hlow]
    cases s <;> rfl
  | true =>
    have hhigh := hround.mp rfl
    rw [if_neg (not_lt.mpr hhigh)]
    cases s with
    | false =>
      rw [if_neg ((hsticky.mp rfl).resolve_left (by linarith)).not_gt]
      rfl
    | true =>
      have hne : t - m ≠ 1 / 2 := fun hh => Bool.false_ne_true (hsticky.mpr (Or.inr hh)).symm
      rw [if_pos (lt_of_le_of_ne hhigh hne.symm)]
      rfl

end

theorem standsFor_exact (m : ℕ) : StandsFor (.ofMantissaAndAccuracy m .exact) m := by
  refine ⟨le_rfl, lt_add_one _, iff_of_false nofun ?_, iff_of_true rfl (Or.inl (sub_self _))⟩
  show ¬ (1 / 2 : ℚ) ≤ m - m
  norm_num

theorem standsFor_scaled (m : ℕ) (e : ℤ) :
    StandsFor (.ofMantissaAndAccuracy m .exact) (m * 2 ^ e / 2 ^ e) := by
  rw [mul_div_assoc, div_self (by positivity), mul_one]
  exact standsFor_exact m

/-- What a division of natural numbers leaves over says where the quotient lies. -/
theorem standsFor_quotient (a : ℕ) {d : ℕ} (hd : 0 < d) :
    StandsFor (.ofMantissaAndAccuracy (a / d) (accuracyOfFraction (a % d) d)) (a / d) := by
  have hd' : (0 : ℚ) < d := by exact_mod_cast hd
  have hsplit : (a : ℚ) / d = (a / d : ℕ) + (a % d : ℕ) / d := by
    rw [eq_comm, add_div' _ _ _ hd'.ne', div_left_inj' hd'.ne']
    exact_mod_cast Nat.div_add_mod' a d
  have hlt : ((a % d : ℕ) : ℚ) / d < 1 := by
    rw [div_lt_one hd']
    exact_mod_cast Nat.mod_lt a hd
  have hhalf : (1 : ℚ) / 2 ≤ (a % d : ℕ) / d ↔ d ≤ 2 * (a % d) := by
    rw [div_le_div_iff₀ two_pos hd', one_mul, mul_comm]
    exact_mod_cast Iff.rfl
  have heq : ((a % d : ℕ) : ℚ) / d = 1 / 2 ↔ 2 * (a % d) = d := by
    rw [div_eq_div_iff hd'.ne' two_ne_zero, one_mul, mul_comm]
    exact_mod_cast Iff.rfl
  have hzero : ((a % d : ℕ) : ℚ) / d = 0 ↔ a % d = 0 := by
    rw [div_eq_zero_iff, or_iff_left hd'.ne', Nat.cast_eq_zero]
  -- the two bits, by what is left over
  unfold accuracyOfFraction
  split
  · rename_i h0
    rw [hsplit, h0, Nat.cast_zero, zero_div, add_zero]
    exact standsFor_exact _
  · rename_i h0
    refine ⟨?_, ?_, ?_, ?_⟩ <;> rw [mantissa_ofMantissaAndAccuracy, hsplit]
    · exact le_add_of_nonneg_right (by positivity)
    · linarith
    · rw [add_sub_cancel_left, hhalf]
      rcases lt_trichotomy (2 * (a % d)) d with h | h | h
      · rw [Nat.compare_eq_lt.mpr h]
        exact iff_of_false nofun (not_le.mpr h)
      · rw [Nat.compare_eq_eq.mpr h]
        exact iff_of_true rfl h.ge
      · rw [Nat.compare_eq_gt.mpr h]
        exact iff_of_true rfl h.le
    · rw [add_sub_cancel_left, hzero, heq, or_iff_right h0]
      rcases lt_trichotomy (2 * (a % d)) d with h | h | h
      · rw [Nat.compare_eq_lt.mpr h]
        exact iff_of_false nofun h.ne
      · rw [Nat.compare_eq_eq.mpr h]
        exact iff_of_true rfl h
      · rw [Nat.compare_eq_gt.mpr h]
        exact iff_of_false nofun h.ne'

/-! ## Rounding to a double -/

/-- `grid v` — the exponent that leaves the number `v` fifty-three bits before the point, or the
    least one.  The doubles about `v` are the multiples of this power of two. -/
def grid (v : ℚ) : ℤ := max (Int.log 2 v - 52) (-1074)

/-- `rounded v` — the multiple of its power of two that is nearest to `v`.  Past the range of
    doubles it is what an unbounded exponent would give. -/
def rounded (v : ℚ) : ℚ := nearest (v / 2 ^ grid v) * 2 ^ grid v

section

variable {v w : ℚ}

theorem rounded_zero : rounded 0 = 0 := by
  unfold rounded
  rw [zero_div, ← Nat.cast_zero, nearest_natCast, Nat.cast_zero, zero_mul]

theorem rounded_nonneg (v : ℚ) : 0 ≤ rounded v := by
  unfold rounded
  positivity

theorem grid_mono (hv : 0 < v) (h : v ≤ w) : grid v ≤ grid w := by
  have hlog : Int.log 2 v ≤ Int.log 2 w := Int.log_mono_right hv h
  unfold grid
  omega

/-- On its grid a number has at most fifty-three bits before the point. -/
theorem div_grid_lt (v : ℚ) : v / 2 ^ grid v < (2 ^ 53 : ℕ) := by
  have hlt : v < ((2 : ℕ) : ℚ) ^ (Int.log 2 v + 1) := Int.lt_zpow_succ_log_self (by norm_num) v
  rw [div_lt_iff₀ (by positivity), Nat.cast_pow, Nat.cast_ofNat, ← zpow_natCast,
    ← zpow_add₀ two_ne_zero]
  refine hlt.trans_le ?_
  rw [Nat.cast_ofNat]
  refine zpow_le_zpow_right₀ one_le_two ?_
  unfold grid
  omega

/-- On its grid a number has no fewer than fifty-three bits before the point, unless the grid is the
    finest one. -/
theorem le_div_grid (hv : 0 < v) (hgrid : grid v ≠ -1074) : (2 ^ 52 : ℕ) ≤ v / 2 ^ grid v := by
  have hle : ((2 : ℕ) : ℚ) ^ Int.log 2 v ≤ v := Int.zpow_log_le_self (by norm_num) hv
  rw [le_div_iff₀ (by positivity), Nat.cast_pow, Nat.cast_ofNat, ← zpow_natCast,
    ← zpow_add₀ two_ne_zero]
  refine le_trans ?_ hle
  rw [Nat.cast_ofNat]
  refine zpow_le_zpow_right₀ one_le_two ?_
  unfold grid at hgrid ⊢
  omega

/-- **Rounding keeps the order** of numbers that are not negative, though it may make them equal. -/
theorem rounded_mono (hv : 0 ≤ v) (h : v ≤ w) : rounded v ≤ rounded w := by
  rcases hv.eq_or_lt with rfl | hv
  · rw [rounded_zero]
    exact rounded_nonneg w
  · have hw : 0 < w := hv.trans_le h
    rcases (grid_mono hv h).lt_or_eq with hlt | heq
    · -- the power of two at the end of the finer grid lies between
      have hmost : nearest (v / 2 ^ grid v) ≤ 2 ^ 53 :=
        nearest_le_of_lt (div_grid_lt v) (by decide)
      have hleast : 2 ^ 52 ≤ nearest (w / 2 ^ grid w) :=
        le_nearest_of_le (le_div_grid hw (by unfold grid at hlt ⊢; omega))
      calc rounded v ≤ (2 ^ 53 : ℕ) * 2 ^ grid v := by unfold rounded; gcongr
        _ = 2 ^ 52 * 2 ^ (grid v + 1) := by
          rw [zpow_add_one₀ two_ne_zero, Nat.cast_pow, Nat.cast_ofNat]; ring
        _ ≤ 2 ^ 52 * 2 ^ grid w := by gcongr <;> [norm_num; omega]
        _ ≤ rounded w := by
          unfold rounded
          gcongr
          exact_mod_cast hleast
    · unfold rounded
      rw [heq]
      gcongr
      exact nearest_mono (by gcongr)

end

/-- The binary logarithm of a number that has `m` before the point, with a power of two moved in. -/
theorem log_mul_zpow {t : ℚ} {m : ℕ} (hm : 0 < m) (hle : (m : ℚ) ≤ t) (hlt : t < m + 1) (e : ℤ) :
    Int.log 2 (t * 2 ^ e) = m.log2 + e := by
  have hpos : 0 < t := lt_of_lt_of_le (by exact_mod_cast hm) hle
  have hscaled : 0 < t * 2 ^ e := by positivity
  have hlow : ((2 : ℕ) : ℚ) ^ ((m.log2 : ℤ) + e) ≤ t * 2 ^ e := by
    rw [Nat.cast_ofNat, zpow_add₀ two_ne_zero, zpow_natCast]
    gcongr
    exact le_trans (by exact_mod_cast Nat.log2_self_le hm.ne') hle
  have hhigh : t * 2 ^ e < ((2 : ℕ) : ℚ) ^ ((m.log2 : ℤ) + e + 1) := by
    rw [Nat.cast_ofNat, add_right_comm, zpow_add₀ two_ne_zero, ← Nat.cast_succ, zpow_natCast]
    gcongr
    exact lt_of_lt_of_le hlt (by exact_mod_cast Nat.lt_log2_self)
  refine le_antisymm ?_ ((Int.zpow_le_iff_le_log (by norm_num) hscaled).mp hlow)
  exact Int.lt_add_one_iff.mp ((Int.lt_zpow_iff_log_lt (by norm_num) hscaled).mp hhigh)

/-- The grid of a number that fits is the one it is written on. -/
theorem Fits.grid_eq {m : ℕ} {e : ℤ} (h : Fits m e) (hm : 0 < m) : grid (m * 2 ^ e) = e := by
  have hlog : Int.log 2 ((m : ℚ) * 2 ^ e) = m.log2 + e := log_mul_zpow hm le_rfl (lt_add_one _) e
  have hlt : m.log2 < 53 := (Nat.log2_lt hm.ne').mpr h.short
  unfold grid
  rw [hlog]
  rcases h.full with hfull | rfl
  · have hle : 52 ≤ m.log2 := (Nat.le_log2 hm.ne').mpr hfull
    have := h.least
    omega
  · omega

/-- A number that fits is not changed by rounding. -/
theorem Fits.rounded_eq {m : ℕ} {e : ℤ} (h : Fits m e) : rounded (m * 2 ^ e) = m * 2 ^ e := by
  rcases Nat.eq_zero_or_pos m with rfl | hm
  · rw [Nat.cast_zero, zero_mul, rounded_zero]
  · unfold rounded
    rw [h.grid_eq hm, mul_div_assoc, div_self (by positivity), mul_one, nearest_natCast]

theorem HasValue.rounded_eq {x : Float} {v : ℚ} (h : HasValue x v) : rounded v = v := by
  cases h with
  | zero h => exact rounded_zero
  | finite h => exact (fits_of_unpack h).1.rounded_eq

/-! ## What the operations compute -/

section

variable {s : Sign} {m : ℕ} {e : ℤ} {a : Accuracy} {v : ℚ}

/-- A significand with bits enough for its number `v` is shifted to the grid of `v`. -/
theorem targetExponent_eq_grid (hv : 0 < v)
    (h : StandsFor (.ofMantissaAndAccuracy m a) (v / 2 ^ e)) (he : e ≤ grid v) :
    Format.binary64.targetExponent (totalExponent m e) = grid v := by
  obtain ⟨hle, hlt, -, -⟩ := h
  rw [mantissa_ofMantissaAndAccuracy] at hle hlt
  have hback : v / 2 ^ e * 2 ^ e = v := div_mul_cancel₀ _ (by positivity)
  rw [binary64_targetExponent]
  unfold totalExponent
  rcases Nat.eq_zero_or_pos m with rfl | hm
  · -- nothing is left before the point: the grid is the finest one
    have hsmall : v < ((2 : ℕ) : ℚ) ^ e := by
      rw [Nat.cast_zero, zero_add, div_lt_one (by positivity)] at hlt
      exact_mod_cast hlt
    have hlog : Int.log 2 v < e := (Int.lt_zpow_iff_log_lt (by norm_num) hv).mp hsmall
    unfold grid at he ⊢
    rw [Nat.log2_zero]
    omega
  · have hlog := log_mul_zpow hm hle hlt e
    rw [hback] at hlog
    unfold grid
    rw [hlog]
    omega

/-- After rounding, a carry out of the significand is moved into the exponent; anything else
    stays. -/
theorem shiftToTargetExponent_carry {r : ℕ} (hr : r ≤ 2 ^ 53) (he : -1074 ≤ e) :
    shiftToTargetExponent Format.binary64 r e .exact
      = if r = 2 ^ 53 then (⟨2 ^ 52, false, false⟩, e + 1) else (⟨r, false, false⟩, e) := by
  split
  · rename_i hcarry
    have htarget : Format.binary64.targetExponent (totalExponent (2 ^ 52 * 2 ^ 1) (e + 1 - (1 : ℕ)))
        = e + 1 := by
      rw [binary64_targetExponent]
      unfold totalExponent
      rw [show Nat.log2 (2 ^ 52 * 2 ^ 1) = 53 by decide]
      omega
    have hshift := shiftToTargetExponent_exact htarget
    rw [hcarry]
    rwa [Nat.cast_one, add_sub_cancel_right] at hshift
  · rename_i hne
    generalize hshift : (Format.binary64.targetExponent (totalExponent r e) - e).toNat = shift
    have hexponent : e + (shift : ℤ) = e := by
      rw [← hshift]
      exact (secondShift_le hr he).2 (lt_of_le_of_ne hr hne)
    obtain rfl : shift = 0 := by omega
    show (ExtendedMantissa.ofMantissaAndAccuracy r .exact
        >>> (Format.binary64.targetExponent (totalExponent r e) - e).toNat,
      e + ((Format.binary64.targetExponent (totalExponent r e) - e).toNat : ℤ)) = _
    rw [hshift, hexponent]
    rfl

/-- **Rounding gives the rounded value:** a significand that stands for `v`, with bits enough, is
    rounded to `rounded v`, in the one way in which that fits. -/
theorem roundWithAccuracy_rounded (hv : 0 < v)
    (h : StandsFor (.ofMantissaAndAccuracy m a) (v / 2 ^ e)) (he : e ≤ grid v) :
    (rounded v = 0 ∧ roundWithAccuracy Format.binary64 s m e a = .zero s) ∨
    ∃ m' e' hm', roundWithAccuracy Format.binary64 s m e a = .finite s m' e' hm' ∧
      Fits m' e' ∧ rounded v = m' * 2 ^ e' := by
  have htarget := targetExponent_eq_grid hv h he
  generalize hshift : (grid v - e).toNat = shift
  have hexponent : e + (shift : ℤ) = grid v := by omega
  have hfirst : shiftToTargetExponent Format.binary64 m e a
      = (ExtendedMantissa.ofMantissaAndAccuracy m a >>> shift, grid v) := by
    show (ExtendedMantissa.ofMantissaAndAccuracy m a
        >>> (Format.binary64.targetExponent (totalExponent m e) - e).toNat,
      e + ((Format.binary64.targetExponent (totalExponent m e) - e).toNat : ℤ)) = _
    rw [htarget, hshift, hexponent]
  have hstands := h.shiftRight shift
  rw [div_div, ← zpow_natCast, ← zpow_add₀ two_ne_zero, hexponent] at hstands
  have hmost : nearest (v / 2 ^ grid v) ≤ 2 ^ 53 := nearest_le_of_lt (div_grid_lt v) (by decide)
  have hleast : -1074 ≤ grid v := le_max_right _ _
  have hsecond := shiftToTargetExponent_carry hmost hleast
  nth_rewrite 1 [← hstands.roundedMantissa_eq] at hsecond
  by_cases hcarry : nearest (v / 2 ^ grid v) = 2 ^ 53
  · rw [if_pos hcarry] at hsecond
    obtain ⟨hzero, -⟩ | ⟨hm, hr⟩ := roundWithAccuracy_of_shifts hfirst hsecond
    · exact absurd hzero (by decide)
    · have hfits : Fits (2 ^ 52) (grid v + 1) := ⟨by decide, by omega, Or.inl le_rfl⟩
      refine Or.inr ⟨2 ^ 52, grid v + 1, hm, hr, hfits, ?_⟩
      unfold rounded
      rw [hcarry, zpow_add_one₀ two_ne_zero]
      push_cast
      ring
  · rw [if_neg hcarry] at hsecond
    obtain ⟨hzero, hr⟩ | ⟨hm, hr⟩ := roundWithAccuracy_of_shifts hfirst hsecond
    · refine Or.inl ⟨?_, hr⟩
      unfold rounded
      rw [show nearest (v / 2 ^ grid v) = 0 from hzero, Nat.cast_zero, zero_mul]
    · refine Or.inr ⟨_, grid v, hm, hr, ?_, rfl⟩
      refine ⟨lt_of_le_of_ne hmost hcarry, hleast, ?_⟩
      rw [or_iff_not_imp_right]
      exact fun hgrid => le_nearest_of_le (le_div_grid hv hgrid)

end

end SolidExport.Double
