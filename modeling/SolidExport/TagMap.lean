/-
  Tag maps: which tag of the output a tag of the source becomes.

  A target is a tag, a stem with a star at its end that stands for `2d` or `3d`, or the mark for a
  tag that cannot be converted.
-/
import SolidExport.Dimension
import SolidExport.Json.Reader

namespace SolidExport

/-! ## Targets -/

namespace Template

/-- The target of a tag that is known and cannot be converted. -/
def notAvailable : String := "N/A"

/-- `isWildcard template` — whether a target ends in a star. -/
def isWildcard (template : String) : Bool := template.toList.getLast? == some '*'

/-- `resolve? template dimension` — the tag that a target is for geometry of a dimension: a star
becomes the dimension, and there is none where that is not known. -/
def resolve? (template : String) (dimension : Option Dimension) : Option String :=
  if isWildcard template then
    dimension.map fun d => String.ofList template.toList.dropLast ++ countText d.toNat ++ "d"
  else some template

/-- `isWellFormed template` — whether a target has no star but perhaps one, as its last
character. -/
def isWellFormed (template : String) : Bool :=
  let tail := template.toList.dropWhile (· != '*')
  tail == [] || tail == ['*']

end Template

/-! ## Maps -/

/-- Targets by source tag, in the order in which they are listed. -/
structure TagMap where
  entries : List (String × String)

namespace TagMap

/-- `m.find? tag` — the target of a tag in the map `m`. -/
def find? (m : TagMap) (tag : String) : Option String := m.entries.lookup tag

/-- The map that is used where none is given.  A node with a tag that is not in it is refused. -/
def standard : TagMap :=
  ⟨[("cube", "cuboid"),
    ("cylinder", "cone"),
    ("polyhedron", "polyhedron"),
    ("sphere", "sphere"),
    ("linear_extrude", "sweep"),
    ("rotate_extrude", "rotate_extrude"),
    ("group", "union*"),
    ("union", "union*"),
    ("color", "union*"),
    ("multmatrix", "union*"),
    ("render", "union*"),
    ("difference", "difference*"),
    ("intersection", "intersection*"),
    ("hull", "hull*"),
    ("minkowski", "minkowski*"),
    ("circle", "circle"),
    ("polygon", "polygon"),
    ("square", "rectangle"),
    ("offset", "offset2d"),
    ("projection", "projection2d"),
    ("import", Template.notAvailable),
    ("surface", Template.notAvailable),
    ("text", Template.notAvailable),
    ("resize", Template.notAvailable)]⟩

/-! ## Building a map -/

/-- `checkEntry entry` — checks one entry; a target that is no text is missing. -/
def checkEntry (entry : String × Option String) : Except Fault (String × String) :=
  let (source, target) := entry
  if Text.isAllBlank source then .error (.unlocated .emptySource)
  else match target with
    | none => .error (.unlocated (.emptyTarget source))
    | some target =>
      if Text.isAllBlank target then .error (.unlocated (.emptyTarget source))
      else if Template.isWellFormed target then .ok (source, target)
      else .error (.unlocated (.misplacedWildcard target))

/-- `ofEntries entries` — the map of some entries, taken in the order in which the members of an
object are listed.  The first fault in that order is reported. -/
def ofEntries (entries : List (String × Option String)) : Except Fault TagMap :=
  ((Json.ordered entries).mapM checkEntry).map TagMap.mk

/-- The name that an object may hold but a map loaded from it does not take. -/
def reservedName : String := "__proto__"

/-- `checkMember member` — a member of the object that a map is loaded from, whose value has to be a
text. -/
def checkMember (member : String × Json) : Except Fault (String × Option String) :=
  match member with
  | (source, .string target) => .ok (source, some target)
  | (source, _) => .error (.unlocated (.targetNotText source))

/-- `ofJson path text` — the map in the JSON text of the file `path`, which only faults need. -/
def ofJson (path text : String) : Except Fault TagMap :=
  match Json.read text with
  | .error f => .error (.unlocated (.invalidJson path (f.message text)))
  | .ok (.object members) => do
    let entries ← (Json.ordered members).mapM checkMember
    ofEntries (entries.filter (·.1 != reservedName))
  | .ok _ => .error (.unlocated (.notAnObject path))

end TagMap

end SolidExport
