/-
  Encoding the shapes that combine others.

  The operands of a union, hull, difference, intersection or sum must not mix flat and solid
  geometry.  A cut projection wraps its operands in an intersection with a thin slab.
-/
import SolidExport.Dimension
import SolidExport.Draft
import SolidExport.Shape.Reading

namespace SolidExport.Shape

open Draft (read)

/-! ## Dimensions of operands -/

/-- `secondDimension seen ns` — looks for a dimension other than `seen` among the operands `ns`, and
gives the two that meet.  Dummies and operands without geometry do not count. -/
def secondDimension (seen : Option Dimension) : List Node →
    Except Fault (Option (Dimension × Dimension))
  | [] => .ok none
  | n :: ns =>
    if n.isDummy then secondDimension seen ns
    else do
      match seen, ← n.dimension with
      | seen, none => secondDimension seen ns
      | none, some d => secondDimension (some d) ns
      | some s, some d => if s = d then secondDimension (some s) ns else return some (s, d)

/-- `checkUniform n target` — refuses the node `n` if its operands have different dimensions.  The
tag `target` is for the fault. -/
def checkUniform (n : Node) (target : String) : Except Fault Unit := do
  match ← secondDimension none n.children with
  | none => return ()
  | some (a, b) => throw (n.fault (.mixedDimensions n.tag target [a.toNat, b.toNat]))

/-! ## Encoders -/

/-- `union target n` — a union or a hull, which any number of operands will do for. -/
def union (target : String) (n : Node) : Draft Unit := read (checkUniform n target)

/-- `binary target n` — a difference, intersection or sum, of at least two operands. -/
def binary (target : String) (n : Node) : Draft Unit := do
  if n.countChildren < 2 then
    throw (.fault (n.fault (.tooFewOperands n.tag target n.countChildren)))
  read (checkUniform n target)

/-- The intersection that a cut projection puts around its operands, with the thin slab in it. -/
def cut : Element :=
  ⟨"intersection3d", [],
    [⟨"cuboid", [("dx", .number 1e4), ("dy", .number 1e4), ("dz", .number 1e-4),
      ("center", .boolean true)], []⟩]⟩

end SolidExport.Shape
