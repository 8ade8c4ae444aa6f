/-
  From a flat list of leveled statements to a tree, and to its listing.

  `attach` gives a node its children: it goes along the statements as long as they stand exactly one
  level below the node, makes a node of each, and gives that node its own children first, which takes
  the statements behind it that lie deeper.  A statement that is not deep enough ends the children and
  is left to the nodes above; one that is too deep skips a level, which is a fault of that statement.

  The root stands at level minus one, so the only statements that no node takes are those with a
  negative level.
-/
import SolidExport.Node.Basic

namespace SolidExport.Node

/-! ## Nesting -/

/-- What giving a node its children leaves, if `given` are the statements behind the node. -/
structure Attached (given : List Statement) where
  /-- The children so far, in the order of their statements. -/
  children : Array Node
  /-- The statements that are left to the nodes above. -/
  rest : List Statement
  /-- They are the last ones of those given: none is passed over and none comes back. -/
  isSuffix : rest <:+ given

/-- `attach level done statements` — the children of a node of the level `level`, where `done` are
    those that it has already and `statements` are what is left of the statements `given` behind it.
    The list gets shorter with every child, by the statement of the child and by those that the child
    takes in turn. -/
def attach {given : List Statement} (level : Int) (done : Array Node) (statements : List Statement)
    (hsuffix : statements <:+ given) : Except Fault (Attached given) :=
  match statements, hsuffix with
  | [], h => .ok ⟨done, [], h⟩
  | s :: rest, h =>
    if s.level < level + 1 then .ok ⟨done, s :: rest, h⟩
    else if level + 1 < s.level then
      .error (.located s.location (.skippedLevel s.level level))
    else do
      let head ← Head.read s
      let below ← attach s.level #[] rest (List.suffix_refl rest)
      attach level (done.push ⟨head, none, below.children.toList⟩) below.rest
        (below.isSuffix.trans ((List.suffix_cons s rest).trans h))
termination_by statements.length
decreasing_by
  · exact Nat.lt_succ_self rest.length
  · exact Nat.lt_succ_of_le below.isSuffix.length_le

/-- `ofStatements statements` — the tree of some statements.  One that not even the root takes is a
fault. -/
def ofStatements (statements : List Statement) : Except Fault Node := do
  let attached ← attach (-1) #[] statements (List.suffix_refl statements)
  match attached.rest with
  | [] => return root attached.children.toList
  | s :: _ => .error (.located s.location (.unexpectedLevel s.level))

/-! ## Listing -/

/-- `listingLine head` — one line of the listing: the tag behind as many spaces as its level, then
the parameters. -/
def listingLine (head : Head) : String :=
  let params := " ".intercalate (head.params.bindings.map fun (name, v) => name ++ "=" ++ v.text)
  let tag := String.ofList (List.replicate head.statement.level.toNat ' ') ++ head.tag
  if params.isEmpty then tag else tag ++ " " ++ params

mutual

/-- `n.listingLines` — the lines of the tree `n`, outer nodes first.  The root has none of its
own. -/
def listingLines : Node → List String
  | ⟨head, _, children⟩ =>
    if head.statement.level = -1 then childLines children
    else listingLine head :: childLines children

/-- `childLines ns` — the lines of the trees `ns` in a row. -/
def childLines : List Node → List String
  | [] => []
  | n :: ns => n.listingLines ++ childLines ns

end

/-- `n.listing` — the listing of the tree `n`, without a line end behind it. -/
def listing (n : Node) : String := "\n".intercalate n.listingLines

end SolidExport.Node
