/-
  Transformation matrices: sixteen cells in four rows of four.

  The cells are kept in one list, row by row.  A list of any length is taken; a cell that is not
  there is zero.  Products are summed from zero in column order, so that a product has no negative
  zero that its summands do not force.
-/
import SolidExport.Angle
import SolidExport.Literal.Basic

namespace SolidExport

/-- A four by four matrix, as its cells row by row. -/
structure Matrix where
  cells : List Float

namespace Matrix

/-- `m.element row col` — the cell in a row and a column, counted from zero.  It is zero where `m`
has none. -/
def element (m : Matrix) (row col : Int) : Float :=
  match row * 4 + col with
  | .ofNat k => m.cells.getD k 0.0
  | .negSucc _ => 0.0

/-- `m.rows` — the cells of `m` in four rows, as they are written. -/
def rows (m : Matrix) : List (List Float) :=
  (List.range 4).map fun row => (m.cells.drop (4 * row)).take 4

/-- `a.mul b` — the product of `a` and `b`: the transformation that applies `b` first and then
`a`. -/
def mul (a b : Matrix) : Matrix :=
  ⟨(List.range 4).flatMap fun (row : Nat) => (List.range 4).map fun (col : Nat) =>
    (List.range 4).foldl (fun sum (k : Nat) => sum + a.element row k * b.element k col) 0.0⟩

/-- `rotationX degrees` — the rotation about the first axis.  Its sine and cosine are snapped, since
a right angle is no double in radians and would leave dust in the cells. -/
def rotationX [Trig] (degrees : Float) : Matrix :=
  let angle := Angle.ofDegrees degrees
  let c := Angle.snap (Trig.cos angle)
  let s := Angle.snap (Trig.sin angle)
  ⟨[1.0, 0.0, 0.0, 0.0,
    0.0, c, -s, 0.0,
    0.0, s, c, 0.0,
    0.0, 0.0, 0.0, 1.0]⟩

/-- `compose corrective explicit` — one transformation after another, where either may be missing:
`explicit` applies first. -/
def compose (corrective explicit : Option Matrix) : Option Matrix :=
  match corrective, explicit with
  | some c, some e => some (c.mul e)
  | some c, none => some c
  | none, e => e

/-! ## Reading a literal -/

/-- `readCell row col v` — the literal `v` as a cell: a finite number.  The place is for the
fault. -/
def readCell (row col : Nat) (v : Literal) : Except Fault Float := do
  let x ← v.toNumber
  if x.isFinite then return x
  else throw (.unlocated (.matrixCell row col v.text))

/-- `readRow row v` — the literal `v` as a row: a vector of four cells. -/
def readRow (row : Nat) (v : Literal) : Except Fault (List Float) :=
  if v.vectorSize? = some 4 then v.items.zipIdx.mapM fun (cell, col) => readCell row col cell
  else throw (.unlocated (.matrixColumns row v.vectorSize?))

/-- `ofLiteral v` — the literal `v` as a matrix: a vector of four rows.  The first fault in reading
order is the one that is reported. -/
def ofLiteral (v : Literal) : Except Fault Matrix :=
  if v.vectorSize? = some 4 then do
    let rows ← v.items.zipIdx.mapM fun (cells, row) => readRow row cells
    return ⟨rows.flatten⟩
  else throw (.unlocated (.matrixRows v.vectorSize?))

end Matrix

end SolidExport
