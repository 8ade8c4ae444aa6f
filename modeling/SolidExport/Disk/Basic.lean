/-
  Disks: files, folders and links by path.

  An entry is found under the names that lead to it from the root, which is a folder itself.  A path
  is walked name by name; a link on the way is replaced by its target, at most forty times.
-/
import SolidExport.Disk.Path
import SolidExport.Text.Utf8

namespace SolidExport

/-- What stands at a place on a disk. -/
inductive Entry where
  | file (content : ByteArray)
  | folder
  | link (target : String)

/-- A disk: entries by the names that lead to them from the root. -/
structure Disk where
  entries : List (List String × Entry)

/-! ## Faults -/

/-- Why a place cannot be used. -/
inductive DiskCause where
  | missing
  | isFolder
  | notFolder
  | tooManyLinks
deriving DecidableEq, Repr

namespace DiskCause

/-- `c.code` — the system's name of the cause `c`. -/
def code : DiskCause → String
  | .missing => "ENOENT"
  | .isFolder => "EISDIR"
  | .notFolder => "ENOTDIR"
  | .tooManyLinks => "ELOOP"

/-- `c.text` — the system's words for the cause `c`. -/
def text : DiskCause → String
  | .missing => "no such file or directory"
  | .isFolder => "illegal operation on a directory"
  | .notFolder => "not a directory"
  | .tooManyLinks => "too many symbolic links encountered"

end DiskCause

/-- What was being done at a place.  A message names the path, except while a file is read. -/
inductive DiskAction where
  | opening (path : String)
  | reading
  /-- Looking at what stands at a path itself. -/
  | inspecting (path : String)
  /-- Looking at what a path leads to. -/
  | following (path : String)
deriving DecidableEq, Repr

/-- `a.text` — how the system calls the action `a`. -/
def DiskAction.text : DiskAction → String
  | .opening path => "open '" ++ path ++ "'"
  | .reading => "read"
  | .inspecting path => "lstat '" ++ path ++ "'"
  | .following path => "stat '" ++ path ++ "'"

/-- A cause, and the action that it stopped. -/
structure DiskFault where
  cause : DiskCause
  action : DiskAction
deriving DecidableEq, Repr

/-- `f.message` — the message of the fault `f`. -/
def DiskFault.message (f : DiskFault) : String :=
  f.cause.code ++ ": " ++ f.cause.text ++ ", " ++ f.action.text

namespace Disk

/-! ## Walking -/

/-- `d.entry? place` — the entry of the disk `d` at a place.  The root is always there. -/
def entry? (d : Disk) (place : List String) : Option Entry :=
  if place = [] then some .folder else d.entries.lookup place

/-- `d.isFolder place` — whether there is a folder at a place; a link to one is none. -/
def isFolder (d : Disk) (place : List String) : Bool :=
  match d.entry? place with
  | some .folder => true
  | _ => false

/-- `steps path` — the names that a path is walked by: empty ones drop out, but a slash at the end
asks for a folder. -/
def steps (path : String) : List String :=
  let names := Path.names path
  let inner := names.filter (· ≠ "")
  if names.getLast? = some "" ∧ inner ≠ [] then inner ++ ["."] else inner

/-- `d.walkNames follow place names` — where a walk from the folder `place` by some names ends.  The
last name may lead nowhere.  A link on the way is left to `follow`, which is given the folder to go
on from and the names to go by. -/
def walkNames (d : Disk) (follow : List String → List String → Except DiskCause (List String))
    (place : List String) : List String → Except DiskCause (List String)
  | [] => .ok place
  | name :: rest =>
    if !d.isFolder place then .error .notFolder
    else if name = "." then d.walkNames follow place rest
    else if name = ".." then d.walkNames follow place.dropLast rest
    else
      let next := place ++ [name]
      match d.entry? next with
      | some (.link target) =>
        follow (if Path.isAbsolute target then [] else place) (steps target ++ rest)
      | some _ => d.walkNames follow next rest
      | none => if rest = [] then .ok next else .error .missing

/-- `d.walk links place names` — where a walk from the folder `place` by some names ends, with no
more than `links` links replaced on the way. -/
def walk (d : Disk) : Nat → List String → List String → Except DiskCause (List String)
  | 0 => d.walkNames fun _ _ => .error .tooManyLinks
  | links + 1 => d.walkNames (d.walk links)

/-- The most links that one walk may follow.  A circle of links is found out by it. -/
def linkLimit : Nat := 40

/-- `d.find folder path` — the place that `path` means in a folder.  Nothing need stand there
yet. -/
def find (d : Disk) (folder path : String) : Except DiskCause (List String) :=
  if path = "" then .error .missing
  else d.walk linkLimit [] ((if Path.isAbsolute path then [] else steps folder) ++ steps path)

/-- `d.locate folder path` — the place of the entry that `path` leads to, which has to be there. -/
def locate (d : Disk) (folder path : String) : Except DiskCause (List String) := do
  let place ← d.find folder path
  if (d.entry? place).isSome then return place else throw .missing

/-- `d.leadsSomewhere folder path` — whether `path` leads to an entry. -/
def leadsSomewhere (d : Disk) (folder path : String) : Bool :=
  match d.locate folder path with
  | .ok _ => true
  | .error _ => false

/-! ## Real paths

The real path of an entry has no links on it.  Unlike a walk, the search for it takes dots out by
the letters of a path alone, before it looks at any link: behind a link to a folder, two dots lead
back to where the link stands. -/

/-- `d.realNames follow place names` — the names of the real path of an absolute one: `place` is
real, and the names behind it have no dots among them.  A link on the way is left to `follow`, which
is given the names of the path that the link turns this one into. -/
def realNames (d : Disk) (follow : List String → Except DiskFault (List String))
    (place : List String) : List String → Except DiskFault (List String)
  | [] => .ok place
  | name :: rest =>
    let next := place ++ [name]
    let path := Path.ofNames next
    if !d.isFolder place then .error ⟨.notFolder, .inspecting path⟩
    else match d.entry? next with
      | none => .error ⟨.missing, .inspecting path⟩
      | some (.link target) =>
        match d.locate "/" path with
        | .error cause => .error ⟨cause, .following path⟩
        | .ok _ => follow (Path.resolveNames (Path.ofNames place) target ++ rest)
      | some _ => d.realNames follow next rest

/-- `d.realPlace links names` — the names of the real path of an absolute one without dots, with no
more than `links` links replaced. -/
def realPlace (d : Disk) : Nat → List String → Except DiskFault (List String)
  | 0, names => d.realNames (fun _ => .error ⟨.tooManyLinks, .following (Path.ofNames names)⟩) [] names
  | links + 1, names => d.realNames (d.realPlace links) [] names

/-- `d.realPath folder path` — the real path of a path in a folder. -/
def realPath (d : Disk) (folder path : String) : Except DiskFault String :=
  (d.realPlace linkLimit (Path.resolveNames folder path)).map Path.ofNames

/-! ## Reading and writing -/

/-- `d.read folder path` — the bytes of the file at `path`.  A folder is opened, and refused when it
is read. -/
def read (d : Disk) (folder path : String) : Except DiskFault ByteArray :=
  match d.find folder path with
  | .error cause => .error ⟨cause, .opening path⟩
  | .ok place =>
    match d.entry? place with
    | some (.file content) => .ok content
    | some _ => .error ⟨.isFolder, .reading⟩
    | none => .error ⟨.missing, .opening path⟩

/-- `put place content entries` — the entries with a file at a place, over what was there. -/
def put (place : List String) (content : ByteArray) :
    List (List String × Entry) → List (List String × Entry)
  | [] => [(place, .file content)]
  | (p, e) :: rest =>
    if p = place then (p, .file content) :: rest else (p, e) :: put place content rest

/-- `d.write folder path content` — the disk after a file is written at `path`.  A folder is refused
when it is opened.  No folder is made on the way. -/
def write (d : Disk) (folder path : String) (content : ByteArray) : Except DiskFault Disk :=
  match d.find folder path with
  | .error cause => .error ⟨cause, .opening path⟩
  | .ok place =>
    match d.entry? place with
    | some .folder => .error ⟨.isFolder, .opening path⟩
    | _ => .ok ⟨put place content d.entries⟩

end Disk

end SolidExport
