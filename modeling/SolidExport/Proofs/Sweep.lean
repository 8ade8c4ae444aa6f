/-
  How many segments a sweep has.

  The count is the twist over ten degrees, rounded up, but it is computed as `36 · |twist| / 360` in
  doubles.  So it overflows at the upper end of the range, where no double is large enough for
  `36 · |twist|`, and vanishes at the lower end, where the quotient is rounded to zero
  (`overflow_iff`, `vanish_iff`).  Rounding keeps the order, so at each end it is enough to look at
  two neighbouring doubles.

  Between the ends a path has one point more than segments.  The points are numbered by a counter
  that goes up by one; in doubles that stops at `2 ^ 53`, so a loop over such a counter ends for
  smaller counts only (`counter_passes_iff`), and these are the paths that have an end
  (`stepsPast_endless_iff`).
-/
import SolidExport.Proofs.Double.Arithmetic
import SolidExport.Proofs.Outcome
import SolidExport.Sweep

namespace SolidExport

open Double (HasValue IsInfinite Rounds rounded)

namespace Sweep

/-! ## Counting in doubles -/

/-- `counter i` — the value of a counter that starts at one, after it has gone up by one `i` times
    in doubles. -/
def counter : ℕ → Float
  | 0 => 1.0
  | i + 1 => counter i + 1.0

/-- A counter goes up by one until it is `2 ^ 53`, and stays there: the next number is rounded back
    to it. -/
theorem hasValue_counter (i : ℕ) : HasValue (counter i) (min (i + 1) (2 ^ 53) : ℕ) := by
  induction i with
  | zero => exact_mod_cast Double.hasValue_one
  | succ i ih =>
    rcases Nat.lt_or_ge (i + 1) (2 ^ 53) with hlt | hge
    · rw [min_eq_left hlt.le] at ih
      rw [min_eq_left (show i + 1 + 1 ≤ 2 ^ 53 from hlt)]
      have hsum := Double.rounds_add ih Double.hasValue_one
      have hexact := Double.hasValue_ofNat (n := i + 1 + 1) hlt
      rw [← Nat.cast_add_one] at hsum
      exact hsum.exact hexact
    · rw [min_eq_right hge] at ih
      rw [min_eq_right (show 2 ^ 53 ≤ i + 1 + 1 by omega)]
      have hlast := Double.hasValue_ofNat (n := 2 ^ 53) le_rfl
      have hstays : Float.ofNat (2 ^ 53) + 1.0 = Float.ofNat (2 ^ 53) := rfl
      show HasValue (counter i + 1.0) _
      rw [ih.eq hlast (by positivity), hstays]
      exact hlast

/-- The numbers that a counter shows before it stays where it is. -/
theorem counter_eq {i : ℕ} (h : i < 2 ^ 53) : counter i = Float.ofNat (i + 1) := by
  have hcounter := hasValue_counter i
  rw [min_eq_left (show i + 1 ≤ 2 ^ 53 from h)] at hcounter
  exact hcounter.eq (Double.hasValue_ofNat h) (by positivity)

/-- **A counter passes the counts below `2 ^ 53` only.**  Adding one leaves `2 ^ 53` where it is,
    so no counter is past a count `n` that large. -/
theorem counter_passes_iff {c : Float} {n : ℕ} (hc : HasValue c n) :
    (∃ i, c < counter i) ↔ n < 2 ^ 53 := by
  constructor
  · rintro ⟨i, hi⟩
    rw [hc.lt_iff (hasValue_counter i), Nat.cast_lt] at hi
    omega
  · intro hn
    refine ⟨n, ?_⟩
    rw [hc.lt_iff (hasValue_counter n), Nat.cast_lt]
    omega

/-- A count that is infinite is passed by no counter, however long it runs. -/
theorem not_passes_of_infinite {c : Float} (hc : IsInfinite c) : ¬ ∃ i, c < counter i := by
  rintro ⟨i, hi⟩
  have hnan := (hasValue_counter i).isNaN
  exact (Double.lt_iff_not_le hc.isNaN hnan).mp hi (hc.le hnan)

/-! ## Walking to the end -/

section

variable {c : Float}

theorem stepsPast_of_value {n : ℕ} (hc : HasValue c n) :
    stepsPast c = if n < 2 ^ 53 then .ok n else .error (.endless c) := by
  unfold stepsPast
  rw [Double.toNat?_eq_some_iff.mpr hc]

theorem stepsPast_of_infinite (hc : IsInfinite c) : stepsPast c = .error (.endless c) := by
  have hnone : Double.toNat? c = none := by
    rw [Option.eq_none_iff_forall_ne_some]
    intro n hn
    have hfinite := (Double.toNat?_eq_some_iff.mp hn).isFinite
    exact absurd hfinite (Bool.eq_false_iff.mp hc.isFinite)
  unfold stepsPast
  rw [hnone]

/-- **A walk has an end exactly if its counter passes the count.**  The count is a natural number or
    infinite, which is all that a number of segments can be. -/
theorem stepsPast_endless_iff (hc : IsInfinite c ∨ ∃ n : ℕ, HasValue c n) :
    stepsPast c = .error (.endless c) ↔ ¬ ∃ i, c < counter i := by
  rcases hc with hinf | ⟨n, hn⟩
  · exact iff_of_true (stepsPast_of_infinite hinf) (not_passes_of_infinite hinf)
  · rw [stepsPast_of_value hn, counter_passes_iff hn]
    split
    · rename_i hlt
      exact iff_of_false nofun (not_not_intro hlt)
    · rename_i hge
      exact iff_of_true rfl hge

end

/-! ## What a twist asks for -/

/-- `turned twist` — the number of segments for a twist alone: one without twist, and else the twist
    over ten degrees, rounded up. -/
def turned (twist : Float) : Float :=
  if twist == 0.0 then 1.0 else Double.ceil (segmentsPerTurn * twist.abs / 360.0)

/-- The least magnitude of a twist for which the segments are too many for a double.  It is found at
    `36 · |twist|`, long before the quotient would be too large. -/
def overflowingTwist : Float := 4.9935920412842106e306

/-- The greatest magnitude of a twist for which no segment is left: the quotient by `360` is rounded
    to zero. -/
def vanishingTwist : Float := 2.5e-323

section

variable {x : Float} {v : ℚ}

/-- What is computed from a magnitude: a product that is rounded, and a quotient that is. -/
theorem scaled_cases (hx : HasValue x v) :
    (HasValue (segmentsPerTurn * x / 360.0) (rounded (rounded (36 * v) / 360)) ∧
      rounded (36 * v) < 2 ^ 1024) ∨
    (IsInfinite (segmentsPerTurn * x / 360.0) ∧ 2 ^ 1024 ≤ rounded (36 * v)) := by
  have h36 : HasValue segmentsPerTurn 36 := by
    exact_mod_cast Double.hasValue_ofNat (n := 36) (by decide)
  have h360 : HasValue 360.0 360 := by
    exact_mod_cast Double.hasValue_ofNat (n := 360) (by decide)
  rcases Double.rounds_mul h36 hx with ⟨hproduct, hlt⟩ | ⟨hproduct, hge⟩
  · left
    refine ⟨?_, hlt⟩
    -- a quotient by more than one is in the range if the dividend is
    have hnonneg : 0 ≤ rounded (36 * v) := Double.rounded_nonneg _
    have hquotient : rounded (rounded (36 * v) / 360) ≤ rounded (36 * v) := by
      calc rounded (rounded (36 * v) / 360) ≤ rounded (rounded (36 * v)) :=
            Double.rounded_mono (by positivity) (div_le_self hnonneg (by norm_num))
        _ = rounded (36 * v) := hproduct.rounded_eq
    rcases Double.rounds_div hproduct h360 (by norm_num) with ⟨h, -⟩ | ⟨-, h⟩
    · exact h
    · exact absurd (hquotient.trans_lt hlt) h.not_gt
  · right
    exact ⟨hproduct.div h360 (by norm_num), hge⟩

/-- The product and the quotient that are computed from a magnitude keep the order of magnitudes,
    rounding and all. -/
theorem scaled_mono {v w : ℚ} (hv : 0 ≤ v) (h : v ≤ w) :
    rounded (36 * v) ≤ rounded (36 * w) ∧
      rounded (rounded (36 * v) / 360) ≤ rounded (rounded (36 * w) / 360) := by
  have hproduct : rounded (36 * v) ≤ rounded (36 * w) :=
    Double.rounded_mono (by positivity) (by gcongr)
  have hnonneg := Double.rounded_nonneg (36 * v)
  exact ⟨hproduct, Double.rounded_mono (by positivity) (by gcongr)⟩

/-- **The upper end.**  The product with the segments of a turn overflows exactly from
    `overflowingTwist` on. -/
theorem overflow_iff (hx : HasValue x v) :
    2 ^ 1024 ≤ rounded (36 * v) ↔ overflowingTwist ≤ x := by
  -- the limit and the double before it
  have hlimit : HasValue overflowingTwist ((8006399337547547 + 1 : ℕ) * 2 ^ (966 : ℤ)) :=
    Double.hasValue_of_ofFloat? (by decide +kernel)
  have hbelow : HasValue 4.99359204128421e306 ((8006399337547547 : ℕ) * 2 ^ (966 : ℤ)) :=
    Double.hasValue_of_ofFloat? (by decide +kernel)
  rw [hlimit.le_iff hx]
  constructor
  · intro hge
    by_contra hlt
    have hle := hx.le_of_lt_succ ⟨by decide, by decide, Or.inl (by decide)⟩
      ⟨by decide, by decide, Or.inl (by decide)⟩ (not_le.mp hlt)
    rcases scaled_cases hbelow with ⟨-, hrange⟩ | ⟨hinf, -⟩
    · exact absurd (hge.trans (scaled_mono hx.nonneg hle).1) hrange.not_ge
    · exact absurd hinf.isFinite (by decide +kernel)
  · intro hge
    rcases scaled_cases hlimit with ⟨hfinite, -⟩ | ⟨-, hrange⟩
    · exact absurd hfinite.isFinite (by decide +kernel)
    · exact hrange.trans (scaled_mono hlimit.nonneg hge).1

/-- **The lower end.**  The quotient by a turn is rounded to zero exactly up to `vanishingTwist`. -/
theorem vanish_iff (hx : HasValue x v) :
    rounded (rounded (36 * v) / 360) = 0 ↔ x ≤ vanishingTwist := by
  -- the limit and the double behind it
  have hlimit : HasValue vanishingTwist ((5 : ℕ) * 2 ^ (-1074 : ℤ)) :=
    Double.hasValue_of_ofFloat? (by decide +kernel)
  have habove : HasValue 3e-323 ((5 + 1 : ℕ) * 2 ^ (-1074 : ℤ)) :=
    Double.hasValue_of_ofFloat? (by decide +kernel)
  rw [hx.le_iff hlimit]
  constructor
  · intro hzero
    by_contra hlt
    have hle : ((5 + 1 : ℕ) : ℚ) * 2 ^ (-1074 : ℤ) ≤ v := by
      by_contra hbetween
      exact hlt (hx.le_of_lt_succ ⟨by decide, by decide, Or.inr rfl⟩
        ⟨by decide, by decide, Or.inr rfl⟩ (not_le.mp hbetween))
    rcases scaled_cases habove with ⟨hsome, -⟩ | ⟨hinf, -⟩
    · have hpos := (Double.hasValue_zero.lt_iff hsome).mp (by decide +kernel)
      exact absurd (hpos.trans_le (scaled_mono habove.nonneg hle).2) hzero.not_gt
    · exact absurd hinf.isFinite (by decide +kernel)
  · intro hle
    rcases scaled_cases hlimit with ⟨hnone, -⟩ | ⟨hinf, -⟩
    · have hzero := (hnone.le_iff Double.hasValue_zero).mp (by decide +kernel)
      exact le_antisymm ((scaled_mono hx.nonneg hle).2.trans hzero) (Double.rounded_nonneg _)
    · exact absurd hinf.isFinite (by decide +kernel)

end

/-- **The segments for a twist.**  They are a natural number, unless they overflow, and they are none
    only for a twist that vanishes. -/
theorem turned_cases {twist : Float} (h : twist.isFinite = true) :
    (IsInfinite (turned twist) ∧ overflowingTwist ≤ twist.abs) ∨
    ∃ n : ℕ, HasValue (turned twist) n ∧ ¬ overflowingTwist ≤ twist.abs ∧
      (n = 0 ↔ 0.0 < twist.abs ∧ twist.abs ≤ vanishingTwist) := by
  obtain ⟨v, hv, hzero⟩ := Double.exists_value_abs h
  have hpositive : 0.0 < twist.abs ↔ 0 < v := Double.hasValue_zero.lt_iff hv
  unfold turned
  by_cases hflat : (twist == 0.0) = true
  · -- without twist there is one segment
    have hv0 : v = 0 := hzero.mpr (Double.beq_zero_iff.mp hflat)
    right
    rw [if_pos hflat]
    refine ⟨1, by exact_mod_cast Double.hasValue_one, ?_, ?_⟩
    · rw [← overflow_iff hv, hv0, mul_zero, Double.rounded_zero]
      exact not_le.mpr (by positivity)
    · rw [hpositive, hv0]
      exact iff_of_false one_ne_zero fun hlt => lt_irrefl _ hlt.1
  · rw [if_neg hflat]
    have hne : v ≠ 0 := fun h0 => hflat (Double.beq_zero_iff.mpr (hzero.mp h0))
    have hpos : 0 < v := hv.nonneg.lt_of_ne hne.symm
    rcases scaled_cases hv with ⟨hquotient, hrange⟩ | ⟨hinf, hrange⟩
    · right
      refine ⟨_, hquotient.ceil, ?_, ?_⟩
      · rw [← overflow_iff hv]
        exact hrange.not_ge
      · rw [Nat.ceil_eq_zero, hpositive, and_iff_right hpos, ← vanish_iff hv]
        exact ⟨fun hle => le_antisymm hle (Double.rounded_nonneg _), le_of_eq⟩
    · left
      rw [hinf.ceil_eq]
      exact ⟨hinf, (overflow_iff hv).mp hrange⟩

example : turned 5e-324 = 0.0 ∧ turned 3e-323 = 1.0 := by decide +kernel

/-! ## Segments and points -/

/-- Slices above a natural count are at least as many without their fraction. -/
theorem trunc_above {c k : Float} {n : ℕ} (hc : HasValue c n) (hk : k.isFinite = true)
    (hlt : c < k) : ∃ m : ℕ, HasValue (Double.trunc k) m ∧ n ≤ m ∧ (m = 0 ↔ k < 1.0) := by
  obtain ⟨w, hw⟩ := hc.exists_of_le (Double.le_of_lt hlt) hk
  refine ⟨_, hw.trunc, Nat.le_floor ((hc.lt_iff hw).mp hlt).le, ?_⟩
  rw [Nat.floor_eq_zero, hw.lt_iff Double.hasValue_one]

/-- Slices that are not above a count of zero are below one. -/
theorem lt_one_of_le {c k : Float} (hc : HasValue c 0) (hk : k.isFinite = true) (hle : k ≤ c) :
    k < 1.0 := by
  apply Double.lt_of_not_le (Double.isNaN_of_isFinite hk) rfl
  intro hone
  obtain ⟨w, hw⟩ := Double.hasValue_one.exists_of_le hone hk
  have hlo := (Double.hasValue_one.le_iff hw).mp hone
  have hhi := (hw.le_iff hc).mp hle
  linarith

/-- `s.Vanishes` — no segment is left for the sweep `s`: it is twisted by next to nothing, and there
    is no slice to make up for it. -/
def Vanishes (s : Sweep) : Prop :=
  0.0 < s.twist.abs ∧ s.twist.abs ≤ vanishingTwist ∧ ∀ k ∈ s.slices, k < 1.0

section

variable {s : Sweep} (htwist : s.twist.isFinite = true)
  (hslices : ∀ k ∈ s.slices, k.isFinite = true)

include htwist hslices

theorem segmentCount_eq : segmentCount s.twist s.slices = .ok (match s.slices with
    | some n => if turned s.twist < n then Double.trunc n else turned s.twist
    | none => turned s.twist) := by
  have hall : s.slices.all Float.isFinite = true := by
    rw [Option.all_eq_true]
    exact hslices
  unfold segmentCount
  rw [htwist, hall]
  rfl

/-- **The segments of a sweep:** at least as many as its slices, infinite exactly from
    `overflowingTwist` on, and none exactly if the sweep vanishes. -/
theorem segments_cases : ∃ c, segmentCount s.twist s.slices = .ok c ∧
    (∀ k ∈ s.slices, Double.trunc k ≤ c) ∧
    ((IsInfinite c ∧ overflowingTwist ≤ s.twist.abs) ∨
      ∃ n : ℕ, HasValue c n ∧ ¬ overflowingTwist ≤ s.twist.abs ∧ (n = 0 ↔ s.Vanishes)) := by
  refine ⟨_, segmentCount_eq htwist hslices, ?_⟩
  have hturned := turned_cases htwist
  unfold Vanishes
  cases hs : s.slices with
  | none =>
    refine ⟨nofun, ?_⟩
    rcases hturned with hinf | ⟨n, hn, hrange, hzero⟩
    · exact Or.inl hinf
    · refine Or.inr ⟨n, hn, hrange, hzero.trans ?_⟩
      exact ⟨fun h => ⟨h.1, h.2, nofun⟩, fun h => ⟨h.1, h.2.1⟩⟩
  | some k =>
    have hk : k.isFinite = true := hslices k hs
    have hnan := Double.isNaN_of_isFinite hk
    simp only [Option.mem_some_iff, forall_eq']
    rcases hturned with ⟨hinf, hrange⟩ | ⟨n, hn, hrange, hzero⟩
    · -- no number of slices is above an infinity
      have hle : k ≤ turned s.twist := hinf.le hnan
      rw [if_neg fun hlt => (Double.lt_iff_not_le hinf.isNaN hnan).mp hlt hle]
      exact ⟨Double.trunc_le hk (hinf.le rfl) hle, Or.inl ⟨hinf, hrange⟩⟩
    · by_cases hlt : turned s.twist < k
      · rw [if_pos hlt]
        obtain ⟨m, hm, hle, hone⟩ := trunc_above hn hk hlt
        refine ⟨(hm.le_iff hm).mpr le_rfl, Or.inr ⟨m, hm, hrange, ?_⟩⟩
        constructor
        · intro hm0
          obtain ⟨hpos, hsmall⟩ := hzero.mp (by omega)
          exact ⟨hpos, hsmall, hone.mp hm0⟩
        · intro h
          exact hone.mpr h.2.2
      · rw [if_neg hlt]
        have hle : k ≤ turned s.twist := Double.le_of_not_lt hn.isNaN hnan hlt
        have hnonneg : 0.0 ≤ turned s.twist := (Double.hasValue_zero.le_iff hn).mpr (by positivity)
        refine ⟨Double.trunc_le hk hnonneg hle, Or.inr ⟨n, hn, hrange, ?_⟩⟩
        constructor
        · rintro rfl
          obtain ⟨hpos, hsmall⟩ := hzero.mp rfl
          exact ⟨hpos, hsmall, lt_one_of_le (by exact_mod_cast hn) hk hle⟩
        · intro h
          exact hzero.mpr ⟨h.1, h.2.1⟩

end

/-- A number of segments is a natural number or infinite, so it is a double with a value or the
    positive infinity. -/
theorem segments_kind {s : Sweep} {c : Float} (h : segmentCount s.twist s.slices = .ok c) :
    IsInfinite c ∨ ∃ n : ℕ, HasValue c n := by
  have hfinite : s.twist.isFinite = true ∧ ∀ k ∈ s.slices, k.isFinite = true := by
    unfold segmentCount at h
    split at h
    · rename_i hboth
      rw [Bool.and_eq_true, Option.all_eq_true] at hboth
      exact hboth
    · exact nomatch h
  obtain ⟨c', hcount, -, hcases⟩ := segments_cases hfinite.1 hfinite.2
  obtain rfl : c = c' := Except.ok.inj (h.symm.trans hcount)
  exact hcases.imp (fun hinf => hinf.1) fun ⟨n, hn, _⟩ => ⟨n, hn⟩

section

variable {trig : Trig} {s : Sweep} {c : Float}

/-- The points of a path of `n` segments that can be counted: its base, and one for each number that
    a counter shows. -/
theorem controlPoints_eq {n : ℕ} (hcount : segmentCount s.twist s.slices = .ok c)
    (hc : HasValue c n) (hn : n < 2 ^ 53) :
    s.controlPoints = .ok (s.basePoint :: (List.range n).map fun i => s.pointAt c (counter i)) := by
  have hsteps : stepsPast c = .ok n := by
    rw [stepsPast_of_value hc, if_pos hn]
  unfold controlPoints
  rw [hcount, Outcome.bind_ok]
  refine ⟨c, rfl, ?_⟩
  rw [hsteps]
  show Except.ok (_ :: (List.range n).map _) = _
  congr 2
  apply List.map_congr_left
  intro i hi
  rw [counter_eq (lt_trans (List.mem_range.mp hi) hn)]

/-- A path has no end exactly if no counter passes its segments. -/
theorem controlPoints_endless_iff (hcount : segmentCount s.twist s.slices = .ok c) :
    s.controlPoints = .error (.endless c) ↔ ¬ ∃ i, c < counter i := by
  rw [← stepsPast_endless_iff (segments_kind hcount)]
  unfold controlPoints
  rw [hcount]
  show (stepsPast c >>= _) = _ ↔ _
  cases stepsPast c with
  | ok n => exact iff_of_false nofun nofun
  | error r =>
    exact ⟨fun h => congrArg _ (Except.error.inj h), fun h => congrArg _ (Except.error.inj h)⟩

/-- A path with finite bounds has points, or it has no end.  There is nothing else to go wrong. -/
theorem controlPoints_cases (htwist : s.twist.isFinite = true)
    (hslices : ∀ k ∈ s.slices, k.isFinite = true) :
    (∃ points, s.controlPoints = .ok points) ∨
      ∃ c, segmentCount s.twist s.slices = .ok c ∧ s.controlPoints = .error (.endless c) ∧
        ¬ ∃ i, c < counter i := by
  obtain ⟨c, hcount, -⟩ := segments_cases htwist hslices
  by_cases hpasses : ∃ i, c < counter i
  · left
    obtain ⟨n, hn⟩ :=
      (segments_kind hcount).resolve_left fun hinf => not_passes_of_infinite hinf hpasses
    exact ⟨_, controlPoints_eq hcount hn ((counter_passes_iff hn).mp hpasses)⟩
  · right
    exact ⟨c, hcount, (controlPoints_endless_iff hcount).mpr hpasses, hpasses⟩

end

end Sweep

end SolidExport
