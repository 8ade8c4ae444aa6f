/-
  Encoding the primitive shapes and the offset.

  Each encoder writes on an element that is already there, in the order in which attributes and
  children stand in the output.
-/
import SolidExport.Draft
import SolidExport.Shape.Reading

namespace SolidExport.Shape

open Draft (read)

/-! ## Round shapes -/

/-- `ball n` — a circle or a sphere, which are written alike. -/
def ball (n : Node) : Draft Unit := do
  Draft.number "r" (← read (n.radius "r" "d"))

/-- `coneRadius n both radius diameter` — the radius of one end of a cone: its own, under either
name, or the one for `both` ends. -/
def coneRadius (n : Node) (both : Option Float) (radius diameter : String) :
    Except Fault Float := do
  match (← n.radius? radius diameter).orElse fun _ => both with
  | some r => n.nonNegative radius r
  | none => throw (n.fault (.missingParameter radius n.tag))

/-- `cone n` — a cone: the height and the radii at its two ends, not both zero.  All are read before
anything is written. -/
def cone (n : Node) : Draft Unit := do
  let h ← read (n.number "h")
  let h ← read (n.positive "h" h)
  let both ← read (n.radius? "r" "d")
  let r1 ← read (coneRadius n both "r1" "d1")
  let r2 ← read (coneRadius n both "r2" "d2")
  if 0.0 < r1 + r2 then
    Draft.number "h" h
    Draft.number "r1" r1
    Draft.number "r2" r2
    Draft.boolean "center" (← read (n.flag "center"))
  else throw (.fault (n.fault (.noRadius (r1 + r2))))

/-! ## Boxes -/

/-- `box axes n` — a box: a positive extent on each of the axes, and whether it is centered. -/
def box (axes : List String) (n : Node) : Draft Unit := do
  let extents ← read (n.extents "size" axes.length)
  (axes.zip extents).forM fun (axis, extent) => do
    Draft.number axis (← read (n.positive axis extent))
  Draft.boolean "center" (← read (n.flag "center"))

/-- A rectangle, which is a box of two axes. -/
def rectangle : Node → Draft Unit := box ["dx", "dy"]

/-- A cuboid, which is a box of three axes. -/
def cuboid : Node → Draft Unit := box ["dx", "dy", "dz"]

/-! ## Polygons -/

/-- `polygonOrder n count` — the order in which the polygon `n` visits its `count` points: its path,
or all points in a row.  Only one path can be written. -/
def polygonOrder (n : Node) (count : Nat) : Except Fault (List Float) :=
  let all := (List.range count).map Float.ofNat
  match n.param? "paths" with
  | some (.vector _ []) => .ok all
  | some (.vector _ [path]) => path.items.mapM Literal.toInteger
  | some (.vector _ paths) => .error (n.fault (.polygonHoles paths.length))
  | _ => .ok all

/-- `polygonVertex n points count index` — the vertex of the polygon `n` at one place of its path,
which names the point `index` of `points`. -/
def polygonVertex (n : Node) (points : Literal) (count : Nat) (index : Float) : Draft Unit := do
  if index < 0.0 ∨ Float.ofNat count ≤ index then
    throw (.fault (n.fault (.pathIndex index count)))
  let point ← read (points.get index)
  match point with
  | .vector _ (x :: y :: _) =>
    Draft.child "vertex" do
      Draft.number "x" (← read (n.finite "points" x))
      Draft.number "y" (← read (n.finite "points" y))
  | _ => throw (.fault (n.fault (.polygonPoint index point.text)))

/-- `polygon n` — a polygon of at least three vertices.  Its points are checked only where its path
visits them. -/
def polygon (n : Node) : Draft Unit := do
  let points ← read (n.require "points")
  let count := points.vectorSize?.getD 0
  let order ← read (polygonOrder n count)
  if order.length < 3 then throw (.fault (n.fault (.tooFewVertices order.length)))
  Draft.child "vertices" (order.forM (polygonVertex n points count))

/-! ## Polyhedra -/

/-- `polyhedronVertex n index point` — the vertex of the polyhedron `n` for the point `index`. -/
def polyhedronVertex (n : Node) (index : Nat) (point : Literal) : Draft Unit :=
  match point with
  | .vector _ (x :: y :: z :: _) =>
    Draft.child "vertex" do
      Draft.number "x" (← read (n.finite "points" x))
      Draft.number "y" (← read (n.finite "points" y))
      Draft.number "z" (← read (n.finite "points" z))
  | _ => throw (.fault (n.fault (.polyhedronPoint index point.size point.text)))

/-- `faceCorner n count face corner` — one corner of a face, which has to name one of the `count`
points. -/
def faceCorner (n : Node) (count face : Nat) (corner : Literal) : Draft Unit := do
  let index ← read corner.toInteger
  if index < 0.0 ∨ Float.ofNat count ≤ index then
    throw (.fault (n.fault (.facePoint face index)))
  Draft.child "fv" (Draft.number "index" index)

/-- `face n count index corners` — the face `index` of at least three corners, turned around: the
two schemas wind their faces in opposite directions. -/
def face (n : Node) (count index : Nat) (corners : Literal) : Draft Unit := do
  if corners.size < 3 then throw (.fault (n.fault (.faceSize index corners.size)))
  Draft.child "face" (corners.items.reverse.forM (faceCorner n count index))

/-- `faceList n` — the faces of the polyhedron `n`; older dumps call them triangles. -/
def faceList (n : Node) : Except Fault Literal :=
  match n.param? "faces", n.param? "triangles" with
  | some v, _ => .ok v
  | none, some v => .ok v
  | none, none => n.require "faces"

/-- `polyhedron n` — a polyhedron of at least four points.  Its vertices are written before its
faces are looked at. -/
def polyhedron (n : Node) : Draft Unit := do
  let points ← read (n.require "points")
  let count := points.vectorSize?.getD 0
  if count < 4 then throw (.fault (n.fault (.tooFewPoints count)))
  Draft.child "vertices" do
    points.items.zipIdx.forM fun (point, i) => polyhedronVertex n i point
  let faces ← read (faceList n)
  Draft.child "faces" do
    faces.items.zipIdx.forM fun (corners, i) => face n count i corners

/-! ## Offset -/

/-- `offset n` — an offset: rounded by a radius, or straight by a distance.  The radius counts where
both are given. -/
def offset (n : Node) : Draft Unit := do
  let r ← read (n.number? "r")
  let delta ← match r with
    | some r => pure r
    | none => read (n.number "delta")
  Draft.number "delta" delta
  Draft.boolean "round" r.isSome
  Draft.boolean "chamfer" (← read (n.flag "chamfer"))

end SolidExport.Shape
