/-
  Whether a node makes flat or solid geometry.

  Generators have a dimension of their own.  Any other node takes the dimension of the first of its
  children that has one, where a child that is no generator is looked into only if its tag passes
  geometry through.  Some tags are known but not supported, and are refused when they are met.
-/
import SolidExport.Node.Basic

namespace SolidExport

/-- The dimension of geometry: flat shapes are combined with flat ones only. -/
inductive Dimension where
  | flat
  | solid
deriving DecidableEq, Repr

namespace Dimension

/-- `d.toNat` — the number of the dimension `d`, which target tags and messages have. -/
def toNat : Dimension → Nat
  | .flat => 2
  | .solid => 3

/-! ## Tags -/

/-- `ofGenerator? tag` — the dimension of the geometry that a tag makes by itself, whatever is below
it. -/
def ofGenerator? (tag : String) : Option Dimension :=
  if ["circle", "square", "polygon", "projection"].contains tag then some .flat
  else if ["sphere", "cylinder", "cube", "polyhedron", "linear_extrude", "rotate_extrude"].contains tag
  then some .solid
  else none

/-- `isUnsupported tag` — whether a tag is known but not supported. -/
def isUnsupported (tag : String) : Bool :=
  ["text", "surface", "import", "resize"].contains tag

/-- `unsupportedCause tag` — why a tag that is known is not supported.  An import is told apart,
since it needs another file. -/
def unsupportedCause (tag : String) : Cause :=
  if tag = "import" then .unsupportedFile tag else .unsupported tag

/-- The four letters that a tag which passes geometry through may begin with.  No more of it is
looked at. -/
def passingStems : List String := ["unio", "diff", "inte", "mink", "offs", "rend", "hull"]

/-- `passesThrough tag` — whether a tag passes the geometry of its children through. -/
def passesThrough (tag : String) : Bool :=
  ["group", "color", "multmatrix"].contains tag
    || passingStems.any fun stem => stem.toList.isPrefixOf tag.toList

end Dimension

namespace Node

/-- `n.ownDimension` — the dimension that the node `n` has by its tag alone. -/
def ownDimension (n : Node) : Except Fault (Option Dimension) :=
  if Dimension.isUnsupported n.tag then .error (n.fault (Dimension.unsupportedCause n.tag))
  else .ok (Dimension.ofGenerator? n.tag)

mutual

/-- `n.dimension` — the dimension of the geometry of the node `n`, if it has any.  Generators answer
for themselves, and any other node for what is below it. -/
def dimension : Node → Except Fault (Option Dimension)
  | ⟨head, transform, children⟩ => do
    match ← ownDimension ⟨head, transform, children⟩ with
    | some d => return some d
    | none => firstDimension children

/-- `firstDimension ns` — the dimension of the first of the children `ns` that has one. -/
def firstDimension : List Node → Except Fault (Option Dimension)
  | [] => .ok none
  | n :: ns =>
    if n.isDummy then firstDimension ns
    else do
      match ← ownDimension n with
      | some d => return some d
      | none =>
        if Dimension.passesThrough n.tag then
          match ← n.dimension with
          | some d => return some d
          | none => firstDimension ns
        else firstDimension ns

end

end Node

end SolidExport
