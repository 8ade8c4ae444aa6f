/-
  Paths: names separated by slashes.

  `resolve` is the absolute path that a path means in a working folder, taken by its letters alone:
  empty names and single dots are dropped, and two dots take the name before them away.

  `extension` is the end of the last name from its last dot on, unless that dot begins the name.
  `outputPath` cuts as much as the extension is long off the end of the path, so slashes at the end
  are cut in its stead.
-/
import SolidExport.Text.Utf16

namespace SolidExport.Path

/-! ## Names -/

/-- `split cs` — the texts between the slashes of the path `cs`.  There is one more than there are
slashes. -/
def split (cs : List Char) : List (List Char) :=
  cs.foldr (fun c names =>
    if c = '/' then [] :: names
    else match names with
      | [] => [[c]]
      | name :: rest => (c :: name) :: rest) [[]]

/-- `names path` — the names of a path, empty ones included. -/
def names (path : String) : List String := (split path.toList).map String.ofList

/-- `isAbsolute path` — whether a path begins with a slash, so that no folder matters to it. -/
def isAbsolute (path : String) : Bool := path.toList.head? == some '/'

/-- `ofNames names` — the path by some names from the root. -/
def ofNames (names : List String) : String := "/" ++ "/".intercalate names

/-! ## Resolving -/

/-- `enter up name` — one name further, where `up` holds the names so far, latest first.  Above the
root is the root. -/
def enter (up : List String) (name : String) : List String :=
  if name = "" ∨ name = "." then up
  else if name = ".." then up.drop 1
  else name :: up

/-- `resolveNames folder path` — the names from the root that `path` means in a folder. -/
def resolveNames (folder path : String) : List String :=
  let start := if isAbsolute path then [] else names folder
  ((start ++ names path).foldl enter []).reverse

/-- `resolve folder path` — the absolute path that `path` means in a folder. -/
def resolve (folder path : String) : String := ofNames (resolveNames folder path)

/-! ## Extensions -/

/-- `lastName cs` — the last name of the path `cs`, slashes at the end aside. -/
def lastName (cs : List Char) : List Char :=
  ((cs.reverse.dropWhile (· == '/')).takeWhile (· != '/')).reverse

/-- `extension cs` — the extension of the path `cs`, with its dot; nothing if it has none. -/
def extension (cs : List Char) : List Char :=
  let name := lastName cs
  let tail := (name.reverse.takeWhile (· != '.')).reverse
  let stem := name.take (name.length - tail.length)
  -- `stem` ends in the last dot, if there is one
  if stem.length < 2 ∨ name = ['.', '.'] then [] else '.' :: tail

/-- The extension of an output file, with its dot. -/
def outputExtension : String := ".xcsg"

/-- `outputPath input` — the path of the output for the path of an input.  Lengths are counted in
code units. -/
def outputPath (input : String) : String :=
  let all := input.toList.flatMap Text.units
  let cut := ((extension input.toList).flatMap Text.units).length
  String.ofList (Text.ofUnits (all.take (all.length - cut))) ++ outputExtension

example : outputPath "models/part.csg" = "models/part.xcsg" := by decide +kernel
example : outputPath ".csg" = ".csg.xcsg" := by decide +kernel
example : outputPath "a.csg//" = "a.c.xcsg" := by decide +kernel
example : resolve "/home/me" "sub/../x.csg" = "/home/me/x.csg" := by decide +kernel

end SolidExport.Path
