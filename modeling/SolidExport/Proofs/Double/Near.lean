/-
  Which numbers are rounded to a double.

  They lie around the double: up to half a unit above it, and down to half a unit below it or to a
  quarter where the grid gets finer (`Fits.rounded_eq_of_near`).  The ends belong to it if the
  significand is even.  So half a unit below the power of two past the range is where the doubles end
  (`range_le_rounded_iff`), and what is below half of the least positive double is zero.
-/
import SolidExport.Proofs.Double.Arithmetic

namespace SolidExport.Double

/-! ## The nearest natural number -/

/-- What lies within half of a natural number is rounded to it; at the ends if it is even. -/
theorem nearest_eq {t : ℚ} {m : ℕ} (hlow : (m : ℚ) - 1 / 2 ≤ t) (hhigh : t ≤ m + 1 / 2)
    (hodd : m % 2 = 1 → (m : ℚ) - 1 / 2 < t ∧ t < m + 1 / 2) : nearest t = m := by
  rcases le_or_gt (m : ℚ) t with hle | hlt
  · have hfloor : ⌊t⌋₊ = m := (Nat.floor_eq_iff (m.cast_nonneg.trans hle)).mpr
      ⟨hle, hhigh.trans_lt (by linarith)⟩
    unfold nearest
    rw [hfloor]
    rcases hhigh.eq_or_lt with heq | hbelow
    · have heven : m % 2 = 0 := by
        by_contra hne
        exact absurd heq (hodd (by omega)).2.ne
      rw [if_neg (by linarith), if_neg (by linarith), heven, Nat.add_zero]
    · rw [if_pos (by linarith)]
  · rcases Nat.eq_zero_or_pos m with rfl | hm
    · have hfloor : ⌊t⌋₊ = 0 := Nat.floor_of_nonpos (by exact_mod_cast hlt.le)
      unfold nearest
      rw [hfloor, if_pos]
      rw [Nat.cast_zero] at hlt ⊢
      linarith
    · obtain ⟨n, rfl⟩ := Nat.exists_eq_add_of_le' hm
      push_cast at hlow hlt hodd
      have hfloor : ⌊t⌋₊ = n := by
        have hn : (0 : ℚ) ≤ n := n.cast_nonneg
        exact (Nat.floor_eq_iff (by linarith)).mpr ⟨by linarith, hlt⟩
      unfold nearest
      rw [hfloor, if_neg (by linarith)]
      rcases hlow.eq_or_lt with heq | habove
      · have hparity : n % 2 = 1 := by
          by_contra hne
          exact absurd heq (hodd (by omega)).1.ne
        rw [if_neg (by linarith), hparity]
      · rw [if_pos (by linarith)]

section

variable {m : ℕ} {e : ℤ} {v : ℚ}

/-! ## The nearest double -/

theorem Fits.rounded_le (h : Fits m e) (hv : 0 ≤ v) (hle : v ≤ (m : ℚ) * 2 ^ e) :
    rounded v ≤ (m : ℚ) * 2 ^ e :=
  (rounded_mono hv hle).trans h.rounded_eq.le

/-- A number that has its neighbour `m * 2 ^ e` on its own grid, and is no more than half a step
    from it, is rounded to it.  On a tie the neighbour has to be even. -/
theorem rounded_eq_of_grid (hgrid : grid v = e) (hlow : ((m : ℚ) - 1 / 2) * 2 ^ e ≤ v)
    (hhigh : v ≤ (m + 1 / 2) * 2 ^ e)
    (hodd : m % 2 = 1 → ((m : ℚ) - 1 / 2) * 2 ^ e < v ∧ v < (m + 1 / 2) * 2 ^ e) :
    rounded v = m * 2 ^ e := by
  have hunit : (0 : ℚ) < 2 ^ e := by positivity
  have hnearest : nearest (v / 2 ^ e) = m := by
    refine nearest_eq ((le_div_iff₀ hunit).mpr hlow) ((div_le_iff₀ hunit).mpr hhigh) fun hm => ?_
    obtain ⟨hlow, hhigh⟩ := hodd hm
    exact ⟨(lt_div_iff₀ hunit).mpr hlow, (div_lt_iff₀ hunit).mpr hhigh⟩
  unfold rounded
  rw [hgrid, hnearest]

/-- The grid of a number between two powers of two, or below the least of them. -/
theorem grid_eq_of_between (hv : 0 < v) (hleast : -1074 ≤ e)
    (hlow : (2 ^ 52 : ℕ) * 2 ^ e ≤ v ∨ e = -1074) (hhigh : v < (2 ^ 53 : ℕ) * 2 ^ e) : grid v = e := by
  have hpower : ∀ k : ℕ, ((2 ^ k : ℕ) : ℚ) * 2 ^ e = (2 : ℕ) ^ (k + e) := by
    intro k
    rw [Nat.cast_pow, ← zpow_natCast, Nat.cast_ofNat, ← zpow_add₀ two_ne_zero]
  rw [hpower] at hlow hhigh
  have hmost : Int.log 2 v < 53 + e := (Int.lt_zpow_iff_log_lt (by norm_num) hv).mp hhigh
  unfold grid
  rcases hlow with hlow | rfl
  · have hle : 52 + e ≤ Int.log 2 v := (Int.zpow_le_iff_le_log (by norm_num) hv).mp hlow
    omega
  · omega

/-- Just below a power of two the unit is half as large, so a quarter of it is half of that. -/
theorem rounded_eq_of_below_power (hleast : -1074 < e)
    (hlow : ((2 ^ 52 : ℕ) - 1 / 4 : ℚ) * 2 ^ e ≤ v) (hhigh : v < (2 ^ 52 : ℕ) * 2 ^ e) :
    rounded v = (2 ^ 52 : ℕ) * 2 ^ e := by
  have hhalf : (2 : ℚ) ^ e = 2 * 2 ^ (e - 1) := by
    rw [zpow_sub_one₀ two_ne_zero]
    ring
  have hunit : (0 : ℚ) < 2 ^ (e - 1) := by positivity
  have hpower : ((2 ^ 53 : ℕ) : ℚ) = 2 * (2 ^ 52 : ℕ) := by norm_num
  have hdouble : ((2 ^ 52 : ℕ) : ℚ) * 2 ^ e = (2 ^ 53 : ℕ) * 2 ^ (e - 1) := by
    rw [hhalf, hpower]
    ring
  have hquarter : ((2 ^ 53 : ℕ) - 1 / 2 : ℚ) * 2 ^ (e - 1) ≤ v := by
    refine le_trans (le_of_eq ?_) hlow
    rw [hhalf, hpower]
    ring
  have hfull : ((2 ^ 52 : ℕ) : ℚ) * 2 ^ (e - 1) ≤ v := by
    refine le_trans ?_ hquarter
    gcongr
    norm_num
  rw [hdouble] at hhigh ⊢
  have hpos : 0 < v := lt_of_lt_of_le (by positivity) hfull
  have hgrid : grid v = e - 1 := grid_eq_of_between hpos (by omega) (Or.inl hfull) hhigh
  refine rounded_eq_of_grid hgrid hquarter ?_ fun hodd => absurd hodd (by decide)
  refine hhigh.le.trans ?_
  gcongr
  linarith

/-- **What is rounded to a double.**  A number is rounded to it if it is at most half a unit away, or
    a quarter where it is below a power of two and the grid is finer there; at the ends if the
    significand is even. -/
theorem Fits.rounded_eq_of_near (h : Fits m e) (hm : 0 < m)
    (hlow : ((m : ℚ) - 1 / 2) * 2 ^ e ≤ v)
    (hfiner : m = 2 ^ 52 → e ≠ -1074 → ((m : ℚ) - 1 / 4) * 2 ^ e ≤ v)
    (hhigh : v ≤ (m + 1 / 2) * 2 ^ e)
    (hodd : m % 2 = 1 → ((m : ℚ) - 1 / 2) * 2 ^ e < v ∧ v < (m + 1 / 2) * 2 ^ e) :
    rounded v = m * 2 ^ e := by
  have hunit : (0 : ℚ) < 2 ^ e := by positivity
  have hone : (1 : ℚ) ≤ m := by exact_mod_cast hm
  have hpos : 0 < v := lt_of_lt_of_le (mul_pos (by linarith) hunit) hlow
  have hshort : (m : ℚ) + 1 ≤ (2 ^ 53 : ℕ) := by exact_mod_cast h.short
  have hbelow : v < (2 ^ 53 : ℕ) * 2 ^ e := by
    refine hhigh.trans_lt ?_
    gcongr
    exact lt_of_lt_of_le (by linarith) hshort
  have hsame : (2 ^ 52 : ℕ) * 2 ^ e ≤ v ∨ e = -1074 → rounded v = m * 2 ^ e := fun hgrid =>
    rounded_eq_of_grid (grid_eq_of_between hpos h.least hgrid hbelow) hlow hhigh hodd
  by_cases hfine : e = -1074
  · exact hsame (Or.inr hfine)
  · have hfull : 2 ^ 52 ≤ m := h.full.resolve_right hfine
    rcases hfull.eq_or_lt with rfl | hmore
    · rcases le_or_gt ((2 ^ 52 : ℕ) * 2 ^ e : ℚ) v with hle | hlt
      · exact hsame (Or.inl hle)
      · have hleast := h.least
        exact rounded_eq_of_below_power (by omega) (hfiner rfl hfine) hlt
    · have hnext : ((2 ^ 52 : ℕ) : ℚ) ≤ m - 1 := by
        rw [le_sub_iff_add_le]
        exact_mod_cast hmore
      refine hsame (Or.inl (le_trans ?_ hlow))
      gcongr
      exact hnext.trans (by linarith)

/-- The number halfway from the greatest double to the power of two past it is a tie, and goes up,
    since the greatest double is odd. -/
theorem rounded_halfway : rounded (2 ^ 1024 - 2 ^ 970) = 2 ^ 1024 := by
  have hfits : Fits (2 ^ 52) 972 := ⟨by decide, by decide, Or.inl le_rfl⟩
  have hunit : (2 : ℚ) ^ (972 : ℤ) = 2 ^ 970 * 2 ^ 2 := by
    rw [← pow_add]
    exact zpow_natCast 2 972
  have hrange : (2 : ℚ) ^ 1024 = 2 ^ 970 * 2 ^ 54 := by rw [← pow_add]
  have hpos : (0 : ℚ) < 2 ^ 970 := by positivity
  rw [hrange]
  generalize (2 : ℚ) ^ 970 = u at hunit hpos ⊢
  have hrounded : rounded (u * 2 ^ 54 - u) = (2 ^ 52 : ℕ) * 2 ^ (972 : ℤ) := by
    refine hfits.rounded_eq_of_near (by decide) ?_ (fun _ _ => ?_) ?_
      fun hodd => absurd hodd (by decide)
    all_goals
      rw [hunit]
      push_cast
      linarith only [hpos]
  rw [hrounded, hunit]
  push_cast
  ring

/-- The greatest double is a unit of its last place below the power of two past it. -/
theorem greatest_eq : ((2 ^ 53 - 1 : ℕ) : ℚ) * 2 ^ (971 : ℤ) = 2 ^ 1024 - 2 ^ 971 := by
  have hunit : (2 : ℚ) ^ (971 : ℤ) = 2 ^ 971 := zpow_natCast 2 971
  have hrange : (2 : ℚ) ^ 1024 = 2 ^ 971 * 2 ^ 53 := by rw [← pow_add]
  rw [hunit, hrange, Nat.cast_sub (by decide)]
  push_cast
  generalize (2 : ℚ) ^ 971 = u
  ring

/-- What is below the number halfway to the power of two past the doubles is rounded to the greatest
    double at most. -/
theorem rounded_le_greatest (hv : 0 ≤ v) (hlt : v < 2 ^ 1024 - 2 ^ 970) :
    rounded v ≤ 2 ^ 1024 - 2 ^ 971 := by
  have hfits : Fits (2 ^ 53 - 1) 971 := ⟨by decide, by decide, Or.inl (by decide)⟩
  rw [← greatest_eq]
  rcases le_or_gt v ((2 ^ 53 - 1 : ℕ) * 2 ^ (971 : ℤ)) with hle | hgt
  · exact hfits.rounded_le hv hle
  · have hunit : (2 : ℚ) ^ (971 : ℤ) = 2 * 2 ^ 970 := by
      rw [← pow_succ']
      exact zpow_natCast 2 971
    have hlast : (2 : ℚ) ^ 971 = 2 * 2 ^ 970 := pow_succ' 2 970
    have hnear : ∀ r : ℚ, ((2 ^ 53 - 1 : ℕ) + r) * 2 ^ (971 : ℤ)
        = 2 ^ 1024 - 2 * 2 ^ 970 + r * (2 * 2 ^ 970) := by
      intro r
      rw [add_mul, greatest_eq, hunit, hlast]
    have hpos : (0 : ℚ) < 2 ^ 970 := by positivity
    rw [greatest_eq, hlast] at hgt
    generalize (2 : ℚ) ^ 1024 = range at hlt hgt hnear
    generalize (2 : ℚ) ^ 970 = unit at hlt hgt hnear hpos
    have hlow : ((2 ^ 53 - 1 : ℕ) - 1 / 2 : ℚ) * 2 ^ (971 : ℤ) < v := by
      rw [sub_eq_add_neg, hnear]
      linarith only [hgt, hpos]
    have hhigh : v < ((2 ^ 53 - 1 : ℕ) + 1 / 2 : ℚ) * 2 ^ (971 : ℤ) := by
      rw [hnear]
      linarith only [hlt]
    exact (hfits.rounded_eq_of_near (by decide) hlow.le (fun h => absurd h (by decide)) hhigh.le
      fun _ => ⟨hlow, hhigh⟩).le

/-- **Where the doubles end.**  A number is rounded past them if it is above the greatest one by half
    a unit. -/
theorem range_le_rounded_iff (hv : 0 ≤ v) : 2 ^ 1024 ≤ rounded v ↔ 2 ^ 1024 - 2 ^ 970 ≤ v := by
  have hpos : (0 : ℚ) < 2 ^ 971 := by positivity
  constructor
  · intro hpast
    by_contra hlt
    have hmost := rounded_le_greatest hv (not_le.mp hlt)
    exact (hmost.trans_lt (sub_lt_self _ hpos)).not_ge hpast
  · intro hle
    have hnonneg : (0 : ℚ) ≤ 2 ^ 1024 - 2 ^ 970 :=
      sub_nonneg.mpr (pow_le_pow_right₀ one_le_two (by decide))
    exact rounded_halfway.symm.le.trans (rounded_mono hnonneg hle)

/-- What is below half of the least positive double is rounded to zero. -/
theorem rounded_eq_zero (hv : 0 < v) (hlt : v < 2 ^ (-1075 : ℤ)) : rounded v = 0 := by
  have hhalf : (2 : ℚ) ^ (-1074 : ℤ) = 2 * 2 ^ (-1075 : ℤ) := by
    rw [show (-1074 : ℤ) = 1 + -1075 by norm_num, zpow_one_add₀ two_ne_zero]
  have hpos : (0 : ℚ) < 2 ^ (-1075 : ℤ) := by positivity
  have hgrid : grid v = -1074 := by
    refine grid_eq_of_between hv le_rfl (Or.inr rfl) (hlt.trans_le ?_)
    rw [hhalf]
    exact (le_mul_of_one_le_left hpos.le one_le_two).trans
      (le_mul_of_one_le_left (by positivity) (by norm_num))
  have hrounded : rounded v = (0 : ℕ) * 2 ^ (-1074 : ℤ) := by
    refine rounded_eq_of_grid hgrid ?_ ?_ nofun <;> rw [hhalf, Nat.cast_zero] <;> linarith
  rw [hrounded, Nat.cast_zero, zero_mul]

end

end SolidExport.Double
