/-
  Writing a tree of nodes as elements.

  Each node becomes one element inside that of its parent: the target of its tag, written by the
  encoder of that target, then its transformation, then its children.  Dummies become nothing, and
  so do, if asked for, nodes without geometry.

  An `Emission` is what writing some nodes leaves behind: the elements, the nodes with the
  transformations they were given, the warnings, and the failure that ended it, if one did.  A
  failure undoes nothing that was written before it.
-/
import SolidExport.Shape.Encoder
import SolidExport.TagMap

namespace SolidExport

/-- How nodes are written, and with which sine and cosine. -/
structure EmitOptions where
  tagMap : TagMap
  /-- Whether nodes without geometry are dropped. -/
  skipEmpty : Bool
  /-- The sine and the cosine that shapes are computed with. -/
  [trig : Trig]

/-! ## The target of a node -/

/-- `inheritedTarget? target` — what a table of targets answers without an entry for `target`: there
are names that every table answers to. -/
def inheritedTarget? (target : String) : Option String :=
  let routine := fun name => "function " ++ name ++ "() \x7b [native code] \x7d"
  if target = "__proto__" then some "[object Object]"
  else if target = "constructor" then some (routine "Object")
  else if ["__defineGetter__", "__defineSetter__", "__lookupGetter__", "__lookupSetter__",
    "hasOwnProperty", "isPrototypeOf", "propertyIsEnumerable", "toLocaleString", "toString",
    "valueOf"].contains target then some (routine target)
  else none

/-- `loneOperandTarget target` — the target of a node with one operand only: there is no difference
or intersection of one, and a sum of one is refused. -/
def loneOperandTarget : String → String
  | "difference2d" | "intersection2d" => "union2d"
  | "difference3d" | "intersection3d" => "union3d"
  | target => (inheritedTarget? target).getD target

/-- What is done with a node that is no dummy. -/
inductive Plan where
  | drop
  | encode (target : String) (encoder : Node → Draft Encoding)

namespace Node

/-- `n.planEmpty o template` — what is done with a node that has no geometry: it is dropped, or
refused. -/
def planEmpty (o : EmitOptions) (n : Node) (template : String) : Except Fault Plan :=
  if o.skipEmpty then .ok .drop else .error (n.fault (.unresolvedDimension n.tag template))

/-- `n.plan o` — what is done with the node `n`, which is no dummy: its tag has to have a target,
its geometry a dimension, and the target an encoder. -/
def plan (o : EmitOptions) (n : Node) : Except Fault Plan :=
  match o.tagMap.find? n.tag with
  | none => .error (n.fault (.unsupported n.tag))
  | some template => do
    let dimension ← n.dimension
    if template = Template.notAvailable then throw (n.fault (.unsupported n.tag))
    match dimension, Template.resolve? template dimension with
    | some _, some resolved =>
      let target := if n.countChildren = 1 then loneOperandTarget resolved else resolved
      match @Shape.encoder? o.trig target with
      | some encoder => return .encode target encoder
      | none => throw (n.fault (.noEncoder n.tag target))
    | _, _ => n.planEmpty o template

/-! ## Transformations -/

/-- `n.explicitTransform` — the matrix that the node `n` is given as its first parameter, if its tag
takes one. -/
def explicitTransform (n : Node) : Except Fault (Option Matrix) :=
  let name := Params.positionalName 0
  match n.param? name with
  | some v =>
    if n.tag = "multmatrix" ∨ n.tag = "rotate_extrude" then some <$> Matrix.ofLiteral v
    else .ok none
  | none =>
    if n.tag = "multmatrix" then .error (n.fault (.missingMatrix name n.tag)) else .ok none

end Node

/-- `matrixRow cells` — one row of a matrix as an element. -/
def matrixRow (cells : List Float) : Element :=
  ⟨"trow", cells.zipIdx.map fun (cell, col) => ("c" ++ countText col, .number cell), []⟩

/-- `matrixBlock m` — the matrix `m` as an element. -/
def matrixBlock (m : Matrix) : Element := ⟨"tmatrix", [], m.rows.map matrixRow⟩

/-! ## Emission -/

/-- What writing some nodes leaves behind, whether it fails or not. -/
structure Emission where
  nodes : List Node
  elements : List Element
  warnings : List Warning
  failure : Option Failure

namespace Emission

/-- `silent nodes` — the emission of nodes that nothing is written for. -/
def silent (nodes : List Node) : Emission := ⟨nodes, [], [], none⟩

/-- `refused n f` — the emission of the node `n` that fails with `f` before an element is begun. -/
def refused (n : Node) (f : Failure) : Emission := ⟨[n], [], [], some f⟩

/-- `a.append b` — the emission `a`, which did not fail, and then `b`. -/
def append (a b : Emission) : Emission :=
  ⟨a.nodes ++ b.nodes, a.elements ++ b.elements, a.warnings ++ b.warnings, b.failure⟩

end Emission

/-- `finishNode n element encoding explicit inner` — the emission of the node `n` whose children
have left `inner`.  Its element has the attributes and children that are encoded in `element`, then
the transformation, then what the children have written. -/
def finishNode (n : Node) (element : Element) (encoding : Encoding) (explicit : Option Matrix)
    (inner : Emission) : Emission :=
  let transform := Matrix.compose encoding.corrective explicit
  let block := transform.toList.map matrixBlock
  let node : Node := { n with
    transform := transform.orElse fun _ => n.transform
    children := inner.nodes }
  ⟨[node], [encoding.mount.close element (block ++ inner.elements)], inner.warnings, inner.failure⟩

mutual

/-- `emitNode o n` — writes the node `n`, children and all.  The checks come in the order of the
faults that are reported: the plan, the matrix, the parameters, the children. -/
def emitNode (o : EmitOptions) : Node → Emission
  | ⟨head, transform, children⟩ =>
    let n : Node := ⟨head, transform, children⟩
    if n.isDummy then .silent [n]
    else match n.plan o with
      | .error f => .refused n (.fault f)
      | .ok .drop => ⟨[n], [], [.emptyShape n.line n.tag], none⟩
      | .ok (.encode target encoder) =>
        match n.explicitTransform with
        | .error f => .refused n (.fault (f.locate n.location))
        | .ok explicit =>
          match encoder n (.new target) with
          | .error f element => ⟨[n], [element], [], some (f.locate n.location)⟩
          | .ok encoding element => finishNode n element encoding explicit (emitNodes o children)

/-- `emitNodes o ns` — writes the nodes `ns` in a row, until one fails. -/
def emitNodes (o : EmitOptions) : List Node → Emission
  | [] => .silent []
  | n :: ns =>
    let first := emitNode o n
    match first.failure with
    | some _ => { first with nodes := first.nodes ++ ns }
    | none => first.append (emitNodes o ns)

end

/-! ## The root -/

/-- The target of a root: a union, since a document may hold several shapes. -/
def rootTemplate : String := "union*"

/-- `rootTarget n` — the tag of the element of a root: all its geometry has one dimension, and there
is some. -/
def rootTarget (n : Node) : Except Fault String := do
  match Template.resolve? rootTemplate (← n.dimension) with
  | none => throw (n.fault .emptyDocument)
  | some target =>
    Shape.checkUniform n target
    return target

/-- `emitRoot o n` — writes the node `n` as a root: a union of its children, whatever its tag. -/
def emitRoot (o : EmitOptions) (n : Node) : Emission :=
  match rootTarget n with
  | .error f => .refused n (.fault f)
  | .ok target =>
    let inner := emitNodes o n.children
    ⟨[{ n with children := inner.nodes }], [⟨target, [], inner.elements⟩], inner.warnings,
      inner.failure⟩

end SolidExport
