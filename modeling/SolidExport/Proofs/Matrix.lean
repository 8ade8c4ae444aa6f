/-
  Matrices that are written: four rows of four finite cells.

  A matrix that is read is full (`ofLiteral_ok`).  The one that turns a revolution has a single one or
  minus one in each row, so its product with a full matrix moves cells and changes signs, and is full
  again (`MovesRows.isFull_mul`).
-/
import Mathlib.Tactic.IntervalCases
import SolidExport.Emission
import SolidExport.Proofs.Double.Finite
import SolidExport.Proofs.Shape.Reading

namespace SolidExport

open Outcome (bind_ok map_ok mapM_ok mem_of_mapM_ok)
open Double (IsZero IsUnit)

namespace Matrix

/-- `m.IsFull` — the matrix `m` has four rows of four cells, and all are finite. -/
def IsFull (m : Matrix) : Prop := m.cells.length = 16 ∧ ∀ x ∈ m.cells, x.isFinite = true

/-! ## Reading -/

variable {v : Literal}

theorem readCell_ok {row col : Nat} {x : Float} (h : readCell row col v = .ok x) :
    x.isFinite = true := by
  obtain ⟨y, -, h⟩ := bind_ok.mp h
  split at h
  · rename_i hfinite
    injection h with h
    subst h
    exact hfinite
  · exact nomatch h

theorem readRow_ok {row : Nat} {cells : List Float} (h : readRow row v = .ok cells) :
    cells.length = 4 ∧ ∀ x ∈ cells, x.isFinite = true := by
  unfold readRow at h
  split at h
  · rename_i hsize
    refine ⟨?_, fun x hx => ?_⟩
    · rw [← (mapM_ok h).length_eq, List.length_zipIdx, Literal.length_items hsize]
    · obtain ⟨⟨cell, col⟩, -, hcell⟩ := mem_of_mapM_ok h hx
      exact readCell_ok hcell
  · exact nomatch h

/-- A literal that is read as a matrix gives a full one: four rows of four finite cells. -/
theorem ofLiteral_ok {m : Matrix} (h : ofLiteral v = .ok m) : m.IsFull := by
  unfold ofLiteral at h
  split at h
  · rename_i hsize
    obtain ⟨rows, hrows, h⟩ := bind_ok.mp h
    injection h with h
    subst h
    have hrow : ∀ r ∈ rows, r.length = 4 ∧ ∀ x ∈ r, x.isFinite = true := by
      intro r hr
      obtain ⟨⟨cells, row⟩, -, hcells⟩ := mem_of_mapM_ok hrows hr
      exact readRow_ok hcells
    have hfour : rows.length = 4 := by
      rw [← (mapM_ok hrows).length_eq, List.length_zipIdx, Literal.length_items hsize]
    refine ⟨?_, fun x hx => ?_⟩
    · have hlengths : rows.map List.length = List.replicate 4 4 := by
        refine List.eq_replicate_iff.mpr ⟨by rw [List.length_map, hfour], ?_⟩
        intro k hk
        obtain ⟨r, hr, rfl⟩ := List.mem_map.mp hk
        exact (hrow r hr).1
      rw [List.length_flatten, hlengths]
      rfl
    · obtain ⟨r, hr, hx⟩ := List.mem_flatten.mp hx
      exact (hrow r hr).2 x hx
  · exact nomatch h

/-- Every cell of a full matrix is finite, and so is the zero that is taken where there is none. -/
theorem IsFull.isFinite_element {m : Matrix} (h : m.IsFull) (row col : Int) :
    (m.element row col).isFinite = true := by
  unfold element
  split
  · rename_i k _
    rw [List.getD_eq_getElem?_getD]
    cases hk : m.cells[k]? with
    | none => rfl
    | some x => exact h.2 x (List.mem_of_getElem? hk)
  · rfl

/-! ## The product with a matrix that moves rows -/

/-- A sum in which the term `j` alone is not zero is finite: before that term it is zero, and behind
    it nothing is added. -/
theorem isFinite_sum {f : Nat → Float} {j k : Nat} (hj : (f j).isFinite = true)
    (hzero : ∀ i < k, i ≠ j → IsZero (f i)) :
    (k ≤ j → IsZero ((List.range k).foldl (fun sum i => sum + f i) 0.0)) ∧
    ((List.range k).foldl (fun sum i => sum + f i) 0.0).isFinite = true := by
  induction k with
  | zero => exact ⟨fun _ => Double.isZero_zero, Double.isZero_zero.isFinite⟩
  | succ k ih =>
    obtain ⟨hbefore, hfinite⟩ := ih fun i hi => hzero i (Nat.lt_succ_of_lt hi)
    rw [List.range_succ, List.foldl_append]
    by_cases hkj : k = j
    · subst hkj
      exact ⟨fun h => absurd h (Nat.not_succ_le_self k), (hbefore (Nat.le_refl k)).isFinite_add hj⟩
    · have hk := hzero k (Nat.lt_succ_self k) hkj
      exact ⟨fun h => (hbefore (Nat.le_of_succ_le h)).add hk, hk.isFinite_add' hfinite⟩

/-- `a.MovesRows` — each row of `a` has one cell of one or minus one, and else zeros.  A product
    with `a` on the left then has the rows of the other factor, up to their signs. -/
def MovesRows (a : Matrix) : Prop :=
  ∀ row : Nat, row < 4 → ∃ j : Nat, j < 4 ∧ IsUnit (a.element row j) ∧
    ∀ k : Nat, k < 4 → k ≠ j → IsZero (a.element row k)

theorem length_mul (a b : Matrix) : (a.mul b).cells.length = 16 := by
  unfold mul
  simp only [List.length_flatMap, List.length_map, List.length_range]
  rfl

/-- Moving the rows of a full matrix gives a full one.  A product of other matrices need not be
    finite. -/
theorem MovesRows.isFull_mul {a b : Matrix} (ha : a.MovesRows) (hb : b.IsFull) :
    (a.mul b).IsFull := by
  refine ⟨length_mul a b, fun x hx => ?_⟩
  obtain ⟨row, hrow, hx⟩ := List.mem_flatMap.mp hx
  obtain ⟨col, -, rfl⟩ := List.mem_map.mp hx
  obtain ⟨j, -, hunit, hzero⟩ := ha row (List.mem_range.mp hrow)
  have hterms : ∀ k : Nat, k < 4 → k ≠ j → IsZero (a.element row k * b.element k col) := by
    intro k hk hkj
    exact (hzero k hk hkj).mul (hb.isFinite_element k col)
  have hterm : (a.element row j * b.element j col).isFinite = true :=
    hunit.isFinite_mul (hb.isFinite_element j col)
  exact (isFinite_sum (f := fun k => a.element row k * b.element k col) hterm hterms).2

end Matrix

/-! ## Revolutions -/

namespace Shape

variable {trig : Trig}

/-- The cells of the matrix of a revolution.  The cosine is some zero: its sign is the machine's. -/
theorem cells_revolutionCorrection : ∃ c, IsZero c ∧ revolutionCorrection.cells =
    [1.0, 0.0, 0.0, 0.0,
      0.0, c, 1.0, 0.0,
      0.0, -1.0, c, 0.0,
      0.0, 0.0, 0.0, 1.0] := by
  refine ⟨_, Double.beq_zero_iff.mp Trig.snap_cos_quarter, ?_⟩
  unfold revolutionCorrection Matrix.rotationX
  dsimp only
  rw [Trig.snap_sin_quarter]
  rfl

theorem isFull_revolutionCorrection : revolutionCorrection.IsFull := by
  obtain ⟨c, hc, hcells⟩ := @cells_revolutionCorrection trig
  have hzero : (0.0 : Float).isFinite = true := rfl
  have hone : (1.0 : Float).isFinite = true ∧ (-1.0 : Float).isFinite = true := ⟨rfl, rfl⟩
  refine ⟨?_, ?_⟩
  · rw [hcells]
    rfl
  · rw [hcells]
    simp [hc.isFinite, hzero, hone]

/-- `unitColumn row` — where a row of the matrix of a revolution is not zero: the second row and the
    third change places. -/
def unitColumn : Nat → Nat
  | 1 => 2
  | 2 => 1
  | row => row

/-- The cells of the matrix of a revolution by their places: one or minus one in the unit column of
    a row, zero elsewhere.  The cosine of the quarter turn is the zero `c`, of either sign. -/
theorem element_revolutionCorrection : ∃ c, IsZero c ∧ ∀ row < 4, ∀ col < 4,
    revolutionCorrection.element (row : Nat) (col : Nat) =
      if col = unitColumn row then if row = 2 then -1.0 else 1.0
      else if col = row then c else 0.0 := by
  obtain ⟨c, hc, hcells⟩ := @cells_revolutionCorrection trig
  refine ⟨c, hc, fun row hrow col hcol => ?_⟩
  show revolutionCorrection.cells.getD (row * 4 + col) 0.0 = _
  rw [hcells]
  interval_cases row <;> interval_cases col <;> rfl

/-- The matrix of a revolution moves rows, on every machine. -/
theorem movesRows_revolutionCorrection : revolutionCorrection.MovesRows := by
  obtain ⟨c, hc, helement⟩ := @element_revolutionCorrection trig
  have hcolumn : ∀ row < 4, unitColumn row < 4 := by decide
  intro row hrow
  refine ⟨unitColumn row, hcolumn row hrow, ?_, fun k hk hne => ?_⟩
  · rw [helement row hrow _ (hcolumn row hrow), if_pos rfl]
    split
    · exact Double.isUnit_neg_one
    · exact Double.isUnit_one
  · rw [helement row hrow k hk, if_neg hne]
    split
    · exact hc
    · exact Double.isZero_zero

end Shape

/-- The matrix that a node is given is full. -/
theorem Node.explicitTransform_ok {n : Node} {m : Matrix}
    (h : n.explicitTransform = .ok (some m)) : m.IsFull := by
  unfold explicitTransform at h
  simp only at h
  split at h
  · split at h
    · obtain ⟨m', hm', h⟩ := map_ok.mp h
      injection h with h
      subst h
      exact Matrix.ofLiteral_ok hm'
    · exact nomatch h
  · split at h
    · exact nomatch h
    · exact nomatch h

end SolidExport
