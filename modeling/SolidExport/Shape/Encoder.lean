/-
  The encoders by target tag.

  An encoder writes the attributes and leading children of an element and says where the rest goes
  (`Mount`): into the element itself, or into one more element inside it.
-/
import SolidExport.Shape.Boolean
import SolidExport.Shape.Extrusion
import SolidExport.Shape.Primitive

namespace SolidExport

/-- Where the transformation and the operands of a node go in its element. -/
inductive Mount where
  | own
  /-- Into an element that stands last in the node's own. -/
  | nested (inner : Element)

namespace Mount

/-- `m.close e rest` — the finished element: the element `e` that an encoder has written, with
`rest` put where `m` says. -/
def close (m : Mount) (e : Element) (rest : List Element) : Element :=
  match m with
  | .own => e.append rest
  | .nested inner => e.push (inner.append rest)

end Mount

/-- What an encoder leaves to be done by whoever writes the node. -/
structure Encoding where
  mount : Mount
  /-- A transformation that applies after the node's own. -/
  corrective : Option Matrix

namespace Shape

/-- `plain body n` — the encoder that writes `body` and leaves nothing to be done but the operands,
which go into the element. -/
def plain (body : Node → Draft Unit) (n : Node) : Draft Encoding := do
  body n
  return ⟨.own, none⟩

/-- `projection n` — a projection.  A cut one has an intersection around its operands. -/
def projection (n : Node) : Draft Encoding := do
  let isCut ← Draft.read (n.flag "cut")
  return ⟨if isCut then .nested cut else .own, none⟩

/-- `revolution n` — a revolution, whose profile is turned behind whatever else is done to it. -/
def revolution [Trig] (n : Node) : Draft Encoding := do
  rotateExtrude n
  return ⟨.own, some revolutionCorrection⟩

/-- `encoder? target` — the encoder of a target, if it has one.  Tag maps may name any target, so
this is where an unknown one is found out. -/
def encoder? [Trig] : String → Option (Node → Draft Encoding)
  | "circle" | "sphere" => some (plain ball)
  | "rectangle" => some (plain rectangle)
  | "polygon" => some (plain polygon)
  | "offset2d" => some (plain offset)
  | "projection2d" => some projection
  | "cuboid" => some (plain cuboid)
  | "cone" => some (plain cone)
  | "polyhedron" => some (plain polyhedron)
  | "linear_extrude" => some (plain linearExtrude)
  | "sweep" => some (plain sweep)
  | "rotate_extrude" => some revolution
  | tag =>
    if ["union2d", "union3d", "hull2d", "hull3d"].contains tag then some (plain (union tag))
    else if ["difference2d", "difference3d", "intersection2d", "intersection3d", "minkowski2d",
      "minkowski3d"].contains tag then some (plain (binary tag))
    else none

end Shape

end SolidExport
