/-
  The tree of a document.

  A node is a statement with its signature read (`Head`), the nodes of its body, and the
  transformation that was last assigned to it, if any.  The root of a document stands one level
  above the outermost statements and belongs to no line.

  A dummy is a group with nothing in it, or with nothing but dummies in it.
-/
import SolidExport.Matrix
import SolidExport.Statement

namespace SolidExport

/-- A statement with its signature read: what a node knows of itself. -/
structure Head where
  statement : Statement
  tag : String
  params : Params

namespace Head

/-- `read s` — reads the signature of the statement `s`. -/
def read (s : Statement) : Except Fault Head :=
  (Signature.read s.line s.signature).map fun signature => ⟨s, signature.tag, signature.params⟩

end Head

/-- A node of a document.  Its transformation is the one that was last written for it or assigned to
it. -/
structure Node where
  head : Head
  transform : Option Matrix
  children : List Node

namespace Node

/-- The tag of the root.  A statement may have it too, so it is the level that tells the root. -/
def rootTag : String := "root"

/-- The tag of a group, the only one that may be a dummy. -/
def groupTag : String := "group"

/-- `root children` — the root of a document with these outermost nodes.  Its statement is made
up. -/
def root (children : List Node) : Node :=
  ⟨⟨⟨rootTag ++ "()", -1, 0⟩, rootTag, .empty⟩, none, children⟩

/-! ## Views -/

/-- `n.tag` — the tag of the node `n`. -/
def tag (n : Node) : String := n.head.tag

/-- `n.level` — how many bodies the statement of the node `n` stands in; the root has level minus
one. -/
def level (n : Node) : Int := n.head.statement.level

/-- `n.line` — the line that the statement of the node `n` begins on, zero for the root. -/
def line (n : Node) : Int := n.head.statement.line

/-- `n.params` — the parameters of the node `n`. -/
def params (n : Node) : Params := n.head.params

/-- `n.isRoot` — whether the node `n` is the root, which its level tells. -/
def isRoot (n : Node) : Bool := n.level == -1

/-- `n.location` — where the node `n` was written. -/
def location (n : Node) : Location := ⟨n.line, n.tag, n.head.statement.signature⟩

/-- `n.param? name` — the literal of the parameter `name`, if the node `n` has one. -/
def param? (n : Node) (name : String) : Option Literal := n.params.get? name

/-- `n.fault cause` — a fault of the node `n`, which names its line and its signature. -/
def fault (n : Node) (cause : Cause) : Fault := .located n.location cause

/-! ## Dummies -/

mutual

/-- `n.isDummy` — whether the node `n` is a group without anything in it, dummies apart. -/
def isDummy : Node → Bool
  | ⟨head, _, children⟩ => head.tag == groupTag && allDummy children

/-- `allDummy ns` — whether the nodes `ns` are all dummies. -/
def allDummy : List Node → Bool
  | [] => true
  | n :: ns => n.isDummy && allDummy ns

end

/-- `n.countChildren` — how many operands the node `n` has: its children that are no dummies. -/
def countChildren (n : Node) : Nat := (n.children.filter (!·.isDummy)).length

/-! ## Places in a tree -/

/-- `n.at? path` — the node that a path of child indexes leads to from `n`. -/
def at? : Node → List Nat → Option Node
  | n, [] => some n
  | n, i :: path => (n.children[i]?).bind (·.at? path)

/-- `modifyAt f path n` — the tree `n` with `f` applied to the node at `path`.  Where there is none,
it stays as it is. -/
def modifyAt (f : Node → Node) : List Nat → Node → Node
  | [], n => f n
  | i :: path, n => { n with children := n.children.modify i (modifyAt f path) }

/-- `n.assignTransform m` — the node `n` with the transformation `m`, in the place of the one it
had. -/
def assignTransform (m : Matrix) (n : Node) : Node := { n with transform := some m }

end Node

end SolidExport
