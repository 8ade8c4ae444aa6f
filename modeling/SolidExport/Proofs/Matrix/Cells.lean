/-
  Matrices cell by cell.

  The cells of a matrix are kept in one list, row by row, so reading, multiplying and writing are about
  positions in that list.  Here each of them is said by row and column alone.  A literal that is read
  is a vector of four vectors of four finite numbers, and each number is the cell in its row and column
  (`ofLiteral_isMatrix`).  A cell of a product is the sum of a row times a column (`element_mul`).
  A matrix is written with the cells of each row as the attributes of one element (`matrixBlock_eq`).

  All three rest on where a cell stands: behind the rows before its own (`getElem?_flatten`).
-/
import SolidExport.Proofs.Matrix

namespace SolidExport

open Outcome (bind_ok getElem?_of_mapM_ok mem_of_mapM_ok)

/-- In rows of one length `width`, the cell `j` of row `i` stands behind all cells of the rows
    before. -/
theorem getElem?_flatten {α : Type} {rows : List (List α)} {width : Nat}
    (hwidth : ∀ row ∈ rows, row.length = width) {j : Nat} (hj : j < width) (i : Nat) :
    rows.flatten[i * width + j]? = (rows[i]?).bind (·[j]?) := by
  induction rows generalizing i with
  | nil => rfl
  | cons row rows ih =>
    have hrow : row.length = width := hwidth row List.mem_cons_self
    rw [List.flatten_cons]
    cases i with
    | zero =>
      rw [Nat.zero_mul, Nat.zero_add, List.getElem?_append_left (by omega)]
      rfl
    | succ i =>
      have hbehind : (i + 1) * width + j = row.length + (i * width + j) := by
        rw [Nat.succ_mul]
        omega
      rw [hbehind, List.getElem?_append_right (Nat.le_add_right _ _), Nat.add_sub_cancel_left]
      exact ih (fun r hr => hwidth r (List.mem_cons_of_mem _ hr)) i

/-! ## Reading -/

namespace Literal

/-- `v.IsMatrix m` — the literal `v` spells the matrix `m`: a vector of four vectors of four finite
    numbers, which are its cells. -/
def IsMatrix (v : Literal) (m : Matrix) : Prop :=
  m.cells.length = 16 ∧ ∃ line rows, v = .vector line rows ∧ rows.length = 4 ∧
    ∀ i : Nat, i < 4 → ∃ line cells, rows[i]? = some (.vector line cells) ∧ cells.length = 4 ∧
      ∀ j : Nat, j < 4 → ∃ line text, cells[j]? = some (.number line (m.element i j) text) ∧
        (m.element i j).isFinite = true

theorem vectorSize?_eq_some {v : Literal} {k : Nat} (h : v.vectorSize? = some k) :
    ∃ line, v = .vector line v.items ∧ v.items.length = k := by
  cases v with
  | vector line items =>
    injection h with h
    exact ⟨line, rfl, h⟩
  | _ => exact nomatch h

theorem toNumber_ok {v : Literal} {x : Float} (h : v.toNumber = .ok x) :
    ∃ line text, v = .number line x text := by
  cases v with
  | number line value text =>
    injection h with h
    subst h
    exact ⟨line, text, rfl⟩
  | _ => exact nomatch h

end Literal

namespace Matrix

/-- The item at the place `i` of a list that is counted is paired with `i`. -/
theorem getElem?_zipIdx {α : Type} {as : List α} {i : Nat} (hi : i < as.length) :
    as.zipIdx[i]? = some (as[i], i) := by
  rw [List.getElem?_zipIdx, List.getElem?_eq_getElem hi, Nat.zero_add]
  rfl

theorem element_eq (m : Matrix) (i j : Nat) : m.element i j = m.cells.getD (i * 4 + j) 0.0 := rfl

/-- The cells of a matrix that is made of rows of four are the cells of the rows. -/
theorem element_flatten {rows : List (List Float)} (hwidth : ∀ row ∈ rows, row.length = 4)
    {i j : Nat} {row : List Float} {x : Float} (hj : j < 4) (hi : rows[i]? = some row)
    (hx : row[j]? = some x) : element ⟨rows.flatten⟩ i j = x := by
  have hcell : rows.flatten[i * 4 + j]? = some x := by
    rw [getElem?_flatten hwidth hj, hi]
    exact hx
  rw [element_eq, List.getD_eq_getElem?_getD, hcell]
  rfl

/-- A cell that is read is a finite number, which is the one that is written. -/
theorem readCell_number {row col : Nat} {v : Literal} {x : Float} (h : readCell row col v = .ok x) :
    (∃ line text, v = .number line x text) ∧ x.isFinite = true := by
  refine ⟨?_, readCell_ok h⟩
  obtain ⟨y, hnumber, hchecked⟩ := bind_ok.mp h
  split at hchecked
  · injection hchecked with hsame
    rw [← hsame]
    exact Literal.toNumber_ok hnumber
  · exact nomatch hchecked

/-- A row that is read is a vector of four finite numbers, which it gives in their places. -/
theorem readRow_vector {row : Nat} {v : Literal} {xs : List Float} (h : readRow row v = .ok xs) :
    ∃ line cells, v = .vector line cells ∧ cells.length = 4 ∧
      ∀ j : Nat, j < 4 → ∃ line x text, cells[j]? = some (.number line x text) ∧
        xs[j]? = some x ∧ x.isFinite = true := by
  unfold readRow at h
  split at h
  · rename_i hsize
    obtain ⟨line, hv, hfour⟩ := Literal.vectorSize?_eq_some hsize
    refine ⟨line, v.items, hv, hfour, fun j hj => ?_⟩
    have hplace : j < v.items.length := by omega
    obtain ⟨x, hx, hread⟩ := getElem?_of_mapM_ok h (getElem?_zipIdx hplace)
    obtain ⟨⟨cellLine, text, hcell⟩, hfinite⟩ := readCell_number hread
    exact ⟨cellLine, x, text, by rw [List.getElem?_eq_getElem hplace, hcell], hx, hfinite⟩
  · exact nomatch h

/-- **A literal that is read as a matrix** spells it, cell by cell. -/
theorem ofLiteral_isMatrix {v : Literal} {m : Matrix} (h : ofLiteral v = .ok m) : v.IsMatrix m := by
  refine ⟨(ofLiteral_ok h).1, ?_⟩
  unfold ofLiteral at h
  split at h
  · rename_i hsize
    obtain ⟨line, hv, hfour⟩ := Literal.vectorSize?_eq_some hsize
    obtain ⟨rows, hrows, hm⟩ := bind_ok.mp h
    injection hm with hm
    subst hm
    have hwidth : ∀ row ∈ rows, row.length = 4 := by
      intro row hrow
      obtain ⟨indexed, -, hread⟩ := mem_of_mapM_ok hrows hrow
      exact (readRow_ok hread).1
    refine ⟨line, v.items, hv, hfour, fun i hi => ?_⟩
    have hplace : i < v.items.length := by omega
    obtain ⟨xs, hxs, hread⟩ := getElem?_of_mapM_ok hrows (getElem?_zipIdx hplace)
    obtain ⟨rowLine, cells, hcells, hlength, hcell⟩ := readRow_vector hread
    refine ⟨rowLine, cells, by rw [List.getElem?_eq_getElem hplace, hcells], hlength,
      fun j hj => ?_⟩
    obtain ⟨cellLine, x, text, hnumber, hx, hfinite⟩ := hcell j hj
    rw [element_flatten hwidth hj hxs hx]
    exact ⟨cellLine, text, hnumber, hfinite⟩
  · exact nomatch h

/-! ## Products -/

/-- **A cell of a product** is the sum of a row of the first matrix times a column of the second. -/
theorem element_mul (a b : Matrix) {i j : Nat} (hi : i < 4) (hj : j < 4) :
    (a.mul b).element i j = 0.0 + a.element i 0 * b.element 0 j + a.element i 1 * b.element 1 j
      + a.element i 2 * b.element 2 j + a.element i 3 * b.element 3 j := by
  -- the cells of a product are made row by row
  refine element_flatten ?_ hj (List.getElem?_map.trans (by rw [List.getElem?_range hi]; rfl)) ?_
  · intro row hrow
    obtain ⟨k, -, rfl⟩ := List.mem_map.mp hrow
    rw [List.length_map, List.length_range]
  · rw [List.getElem?_map, List.getElem?_range hj]
    rfl

/-! ## Writing -/

/-- `m.cellRow i` — row `i` of the matrix `m` as an element: its cells are the attributes `c0` to
    `c3`. -/
def cellRow (m : Matrix) (i : Nat) : Element :=
  ⟨"trow", [("c0", .number (m.element i 0)), ("c1", .number (m.element i 1)),
    ("c2", .number (m.element i 2)), ("c3", .number (m.element i 3))], []⟩

/-- `m.cellBlock` — the matrix `m` as an element of four rows. -/
def cellBlock (m : Matrix) : Element :=
  ⟨"tmatrix", [], [m.cellRow 0, m.cellRow 1, m.cellRow 2, m.cellRow 3]⟩

theorem matrixRow_eq (a b c d : Float) : matrixRow [a, b, c, d]
    = ⟨"trow", [("c0", .number a), ("c1", .number b), ("c2", .number c), ("c3", .number d)], []⟩ := by
  have hnames : "c" ++ countText 0 = "c0" ∧ "c" ++ countText 1 = "c1" ∧
      "c" ++ countText 2 = "c2" ∧ "c" ++ countText 3 = "c3" := by
    decide
  show Element.mk "trow" [("c" ++ countText 0, .number a), ("c" ++ countText 1, .number b),
    ("c" ++ countText 2, .number c), ("c" ++ countText 3, .number d)] [] = _
  rw [hnames.1, hnames.2.1, hnames.2.2.1, hnames.2.2.2]

/-- The four cells from `4 * i` on are row `i` of the matrix. -/
theorem take_drop_eq {m : Matrix} (h : m.cells.length = 16) {i : Nat} (hi : i < 4) :
    (m.cells.drop (4 * i)).take 4 = (List.range 4).map fun j : Nat => m.element i j := by
  refine List.ext_getElem ?_ fun j hj _ => ?_
  · rw [List.length_take, List.length_drop, List.length_map, List.length_range, h]
    omega
  · rw [List.length_take, List.length_drop, h] at hj
    have hplace : i * 4 + j < m.cells.length := by omega
    rw [List.getElem_take, List.getElem_drop, List.getElem_map, List.getElem_range, element_eq,
      List.getD_eq_getElem?_getD, List.getElem?_eq_getElem hplace, Option.getD_some]
    congr 1
    omega

/-- **A matrix of sixteen cells is written cell by cell**, each cell under the name of its
    column. -/
theorem matrixBlock_eq {m : Matrix} (h : m.cells.length = 16) : matrixBlock m = m.cellBlock := by
  have hrow : ∀ i : Nat, i < 4 → matrixRow ((m.cells.drop (4 * i)).take 4) = m.cellRow i := by
    intro i hi
    rw [take_drop_eq h hi]
    exact matrixRow_eq _ _ _ _
  show Element.mk "tmatrix" [] [matrixRow _, matrixRow _, matrixRow _, matrixRow _] = _
  rw [hrow 0 (by decide), hrow 1 (by decide), hrow 2 (by decide), hrow 3 (by decide)]
  rfl

end Matrix

end SolidExport
