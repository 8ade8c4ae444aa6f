/-
  Elements: the tree that is written.

  An element has a tag, attributes in the order in which their names were first set, and children.
-/
import SolidExport.Decimal.Text
import SolidExport.Named

namespace SolidExport

/-- The value of an attribute.  Numbers become texts only when the document is written. -/
inductive Attribute where
  | number (value : Float)
  | boolean (value : Bool)
  | text (value : String)

/-- An element of a document: a tag with attributes and children. -/
structure Element where
  tag : String
  attributes : List (String × Attribute)
  children : List Element

namespace Element

/-- `new tag` — the element `tag` with nothing in it. -/
def new (tag : String) : Element := ⟨tag, [], []⟩

/-- `e.set name value` — the element `e` with an attribute set.  One that is there keeps its
place. -/
def set (e : Element) (name : String) (value : Attribute) : Element :=
  { e with attributes := Named.set name value e.attributes }

/-- `e.attribute? name` — the value of the attribute `name`, if `e` has it. -/
def attribute? (e : Element) (name : String) : Option Attribute := e.attributes.lookup name

/-- `e.append children` — the element `e` with `children` behind those that are there. -/
def append (e : Element) (children : List Element) : Element :=
  { e with children := e.children ++ children }

/-- `e.push child` — the element `e` with one child behind those that are there. -/
def push (e : Element) (child : Element) : Element := e.append [child]

/-- `e.childIndex? tag` — the index of the first child of `e` with a tag. -/
def childIndex? (e : Element) (tag : String) : Option Nat :=
  e.children.findIdx? (·.tag == tag)

/-! ## Places in a tree -/

/-- `e.at? path` — the element that a path of child indexes leads to from `e`. -/
def at? : Element → List Nat → Option Element
  | e, [] => some e
  | e, i :: path => (e.children[i]?).bind (·.at? path)

/-- `modifyAt f path e` — the tree `e` with `f` applied to the element at `path`.  Where there is
none, it stays as it is. -/
def modifyAt (f : Element → Element) : List Nat → Element → Element
  | [], e => f e
  | i :: path, e => { e with children := e.children.modify i (modifyAt f path) }

end Element

end SolidExport
