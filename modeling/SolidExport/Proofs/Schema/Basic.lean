/-
  The schema of a document: which elements it may hold, with which attributes, in which order.

  A shape has the attributes of its tag (`fields`), then the blocks of its tag (`HasBlocks`), one
  matrix at most, and shapes.  The one exception is a cut projection, which holds an intersection
  and nothing else, and whose intersection begins with a slab.

  The angle of a revolution and the control points of a sweep are computed from finite numbers and
  may overflow; what a field `number` admits is any number.  All others are finite.
-/
import Mathlib.Data.List.Forall2
import SolidExport.Element.Basic

namespace SolidExport.Schema

/-! ## Attributes -/

/-- What the value of an attribute may be.  A `number` need not be finite: it is computed from
    parameters that are. -/
inductive Field where
  | positive
  | nonNegative
  | finite
  | number
  | boolean

/-- `f.Admits value` — whether the value of an attribute is of the kind `f`. -/
def Field.Admits : Field → Attribute → Prop
  | .positive, .number x => x.isFinite = true ∧ 0.0 < x
  | .nonNegative, .number x => x.isFinite = true ∧ 0.0 ≤ x
  | .finite, .number x => x.isFinite = true
  | .number, .number _ => True
  | .boolean, .boolean _ => True
  | _, _ => False

/-- `Conforms fields attributes` — the attributes are these fields and no others, in this order,
    each with a value of its kind. -/
def Conforms (fields : List (String × Field)) (attributes : List (String × Attribute)) : Prop :=
  List.Forall₂ (fun f a => a.1 = f.1 ∧ f.2.Admits a.2) fields attributes

/-- `fields tag` — the attributes that a shape with this tag has, in the order in which they are
    written. -/
def fields : String → List (String × Field)
  | "circle" | "sphere" => [("r", .positive)]
  | "rectangle" => [("dx", .positive), ("dy", .positive), ("center", .boolean)]
  | "cuboid" => [("dx", .positive), ("dy", .positive), ("dz", .positive), ("center", .boolean)]
  | "cone" => [("h", .positive), ("r1", .nonNegative), ("r2", .nonNegative), ("center", .boolean)]
  | "offset2d" => [("delta", .finite), ("round", .boolean), ("chamfer", .boolean)]
  | "linear_extrude" => [("dz", .positive), ("center", .boolean)]
  | "rotate_extrude" => [("angle", .number)]
  | _ => []

/-- `HasRadius attributes` — a cone with these attributes has a radius at one of its ends, and so is
    more than a line. -/
def HasRadius (attributes : List (String × Attribute)) : Prop :=
  ∃ r1 r2, attributes.lookup "r1" = some (.number r1) ∧ attributes.lookup "r2" = some (.number r2) ∧
    0.0 < r1 + r2

/-! ## Blocks -/

/-- `IsLeaf tag fields e` — the element `e` has this tag and these attributes, and nothing in it. -/
structure IsLeaf (tag : String) (fields : List (String × Field)) (e : Element) : Prop where
  tag_eq : e.tag = tag
  attributes : Conforms fields e.attributes
  children_eq : e.children = []

/-- `IsList tag least Item e` — the element `e` has this tag and no attributes, and at least `least`
    children, each of which is an `Item`. -/
structure IsList (tag : String) (least : Nat) (Item : Element → Prop) (e : Element) : Prop where
  tag_eq : e.tag = tag
  attributes_eq : e.attributes = []
  least_le : least ≤ e.children.length
  items : ∀ c ∈ e.children, Item c

/-- `IsCorner count e` — the element `e` is a corner of a face: the index of one of `count`
    vertices, a whole number from zero on. -/
def IsCorner (count : Nat) (e : Element) : Prop :=
  ∃ index, e = ⟨"fv", [("index", .number index)], []⟩ ∧
    0.0 ≤ index ∧ index < Float.ofNat count ∧ Double.isInteger index = true

/-- `HasBlocks tag blocks` — a shape with this tag begins with these blocks.  Only polygons,
    polyhedra and sweeps have any: they list points, and a polyhedron its faces too. -/
inductive HasBlocks : String → List Element → Prop where
  | polygon {vertices : Element}
      (hvertices : IsList "vertices" 3 (IsLeaf "vertex" [("x", .finite), ("y", .finite)]) vertices) :
      HasBlocks "polygon" [vertices]
  | polyhedron {vertices faces : Element}
      (hvertices : IsList "vertices" 4
        (IsLeaf "vertex" [("x", .finite), ("y", .finite), ("z", .finite)]) vertices)
      (hfaces : IsList "faces" 0 (IsList "face" 3 (IsCorner vertices.children.length)) faces) :
      HasBlocks "polyhedron" [vertices, faces]
  | sweep {path : Element}
      (hpath : IsList "spline_path" 1
        (IsLeaf "cpoint" [("x", .number), ("y", .number), ("z", .number),
          ("vx", .number), ("vy", .number), ("vz", .number)]) path) :
      HasBlocks "sweep" [path]
  | none {tag : String} (htag : tag ∉ ["polygon", "polyhedron", "sweep"]) : HasBlocks tag []

/-- `IsMatrix e` — the element `e` is a transformation: four rows of four finite cells. -/
structure IsMatrix (e : Element) : Prop where
  rows : IsList "tmatrix" 4
    (IsLeaf "trow" [("c0", .finite), ("c1", .finite), ("c2", .finite), ("c3", .finite)]) e
  four : e.children.length = 4

/-! ## Shapes -/

/-- The tags of shapes, which are the targets that have an encoder. -/
def shapeTags : List String :=
  ["circle", "sphere", "rectangle", "polygon", "offset2d", "projection2d", "cuboid", "cone",
    "polyhedron", "linear_extrude", "sweep", "rotate_extrude", "union2d", "union3d", "hull2d",
    "hull3d", "difference2d", "difference3d", "intersection2d", "intersection3d", "minkowski2d",
    "minkowski3d"]

/-- The tags of the elements that stand in blocks and matrices.  None of them is the tag of a
    shape. -/
def partTags : List String :=
  ["vertices", "vertex", "faces", "face", "fv", "spline_path", "cpoint", "tmatrix", "trow"]

/-- `IsShape e` — the element `e` is a shape with everything in it: its attributes, its blocks, at
    most one transformation, and shapes.  A cut projection holds the intersection of a slab and the
    shapes that are cut. -/
inductive IsShape : Element → Prop where
  | own {tag : String} {attributes : List (String × Attribute)} {blocks matrix shapes : List Element}
      (htag : tag ∈ shapeTags) (hattributes : Conforms (fields tag) attributes)
      (hradius : tag = "cone" → HasRadius attributes) (hblocks : HasBlocks tag blocks)
      (hone : matrix.length ≤ 1) (hmatrix : ∀ m ∈ matrix, IsMatrix m)
      (hshapes : ∀ s ∈ shapes, IsShape s) :
      IsShape ⟨tag, attributes, blocks ++ (matrix ++ shapes)⟩
  | cut {slab : Element} {matrix shapes : List Element}
      (hslab : slab.tag = "cuboid" ∧ slab.children = [] ∧ Conforms (fields "cuboid") slab.attributes)
      (hone : matrix.length ≤ 1) (hmatrix : ∀ m ∈ matrix, IsMatrix m)
      (hshapes : ∀ s ∈ shapes, IsShape s) :
      IsShape ⟨"projection2d", [], [⟨"intersection3d", [], slab :: (matrix ++ shapes)⟩]⟩

end SolidExport.Schema
