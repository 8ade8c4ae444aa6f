/-
  Sessions: one tree and one document that conversions add to.

  A conversion may start at any node of the tree.  It adds to the document, to the warnings and to
  the transformations of the nodes, also when it fails.
-/
import SolidExport.Conversion

namespace SolidExport

/-- A tree, the document that its nodes are written to, and the warnings so far. -/
structure Session where
  root : Node
  document : Element
  warnings : List Warning

namespace Session

/-- `start root` — the session on the tree `root` before anything is done. -/
def start (root : Node) : Session := ⟨root, emptyDocument, []⟩

/-- `s.assignTransform path m` — the session `s` with the transformation `m` assigned to the node at
`path`.  Nothing is written by that. -/
def assignTransform (s : Session) (path : List Nat) (m : Matrix) : Session :=
  { s with root := s.root.modifyAt (·.assignTransform m) path }

/-- `s.convert o path n` — converts `n`, the node at `path`, as a root, and gives the tag of the new
element.  A failure keeps what was written before it. -/
def convert (s : Session) (o : EmitOptions) (path : List Nat) (n : Node) :
    Session × Except Failure String :=
  let emission := emitRoot o n
  let session : Session :=
    { root := s.root.modifyAt (fun n => emission.nodes.head?.getD n) path
      document := s.document.append emission.elements
      warnings := s.warnings ++ emission.warnings }
  (session,
    match emission.failure with
    | some f => .error f
    | none => .ok ((emission.elements.head?.map (·.tag)).getD ""))

end Session

end SolidExport
