/-
  Parameter lists: `name=value` pairs separated by commas.

  A comma or an equals sign only counts outside brackets and strings.  `Depth` follows a text and
  knows whether it is inside either; a `Piece` is what stands between two counting commas, cut at
  its first counting equals sign.  A piece that is not all white space binds its name, or the name
  of its position, to its literal; a text that is no literal binds nothing but still takes its
  position.

  `Params` keeps the bindings in the order in which their names first occurred; a later binding of
  the same name replaces the value in place.
-/
import SolidExport.Literal.Reader
import SolidExport.Named

namespace SolidExport

/-! ## Bindings -/

/-- Named literals, in the order of their first binding.  Each name is bound once. -/
structure Params where
  bindings : List (String × Literal)

namespace Params

/-- No bindings at all. -/
def empty : Params := ⟨[]⟩

/-- `p.insert name value` — binds `name` to `value`, in its old place if it was bound before. -/
def insert (p : Params) (name : String) (value : Literal) : Params :=
  ⟨Named.set name value p.bindings⟩

/-- `p.get? name` — the literal that `name` is bound to, if it is. -/
def get? (p : Params) (name : String) : Option Literal := p.bindings.lookup name

end Params

/-! ## Inside and outside -/

/-- How deep a text is in brackets, and whether it is inside a string or behind a backslash
there.  More closing than opening brackets give a negative depth. -/
structure Depth where
  brackets : Int
  quoted : Bool
  escaped : Bool
deriving DecidableEq, Repr

namespace Depth

/-- The depth outside of everything, where a list begins. -/
def outside : Depth := ⟨0, false, false⟩

/-- `d.isOutside` — whether commas and equals signs count at the depth `d`. -/
def isOutside (d : Depth) : Bool := d.brackets == 0 && !d.quoted

/-- `d.step c` — the depth behind the character `c`.  Inside a string brackets do not count, and
behind a backslash not even a quote. -/
def step (d : Depth) (c : Char) : Depth :=
  if d.quoted then
    if d.escaped then { d with escaped := false }
    else if c = '\\' then { d with escaped := true }
    else if c = '"' then { d with quoted := false }
    else d
  else if c = '"' then { d with quoted := true }
  else if c = '[' then { d with brackets := d.brackets + 1 }
  else if c = ']' then { d with brackets := d.brackets - 1 }
  else d

end Depth

/-! ## Pieces -/

/-- One parameter as written: the text before its first counting equals sign, if it has one, and
the text behind. -/
structure Piece where
  name : Option String
  value : String
deriving DecidableEq, Repr

namespace Piece

/-- The piece without characters, which every piece begins as. -/
def empty : Piece := ⟨none, ""⟩

/-- `p.push d c` — the piece `p` with one more character `c`, which stands at the depth `d`.  The
first counting equals sign makes a name of what stands before it. -/
def push (d : Depth) (p : Piece) (c : Char) : Piece :=
  if d.isOutside && c == '=' && p.name.isNone then ⟨some p.value, ""⟩
  else { p with value := p.value.push c }

/-- `p.isBlank` — whether the piece `p` is no parameter at all, and takes no position. -/
def isBlank (p : Piece) : Bool := p.name.isNone && Text.isAllBlank p.value

end Piece

/-- The state of the cutting: the pieces cut so far, the one being cut, and the depth it has
reached. -/
structure Splitter where
  pieces : Array Piece
  current : Piece
  depth : Depth

namespace Splitter

/-- `s.step c` — the splitter behind one more character: a counting comma ends the piece. -/
def step (s : Splitter) (c : Char) : Splitter :=
  if s.depth.isOutside && c == ',' then ⟨s.pieces.push s.current, .empty, s.depth⟩
  else ⟨s.pieces, s.current.push s.depth c, s.depth.step c⟩

end Splitter

/-- `Piece.split list` — the pieces of a parameter list.  There is at least one, which may be
blank. -/
def Piece.split (list : String) : List Piece :=
  let s := list.toList.foldl Splitter.step ⟨#[], .empty, .outside⟩
  (s.pieces.push s.current).toList

/-! ## Reading a list -/

namespace Params

/-- `positionalName index` — the name of a parameter without a name: its position, with at least
three characters. -/
def positionalName (index : Int) : String :=
  let digits := (integerText index).toList
  "_p" ++ String.ofList (List.replicate (3 - digits.length) '0' ++ digits)

/-- `p.addPiece line index piece` — the bindings `p` with the parameter at position `index`, read on
`line`. -/
def addPiece (line : Int) (index : Nat) (p : Params) (piece : Piece) : Params :=
  let name := match piece.name with
    | some name => Text.trimmed name
    | none => positionalName index
  match Literal.read? line piece.value with
  | some value => p.insert name value
  | none => p

/-- `read line list` — the bindings of a parameter list, all read on `line`.  Named parameters take
positions too, so a position is not the number of unnamed ones before. -/
def read (line : Int) (list : String) : Params :=
  let pieces := (Piece.split list).filter (!·.isBlank)
  pieces.zipIdx.foldl (fun p (piece, index) => p.addPiece line index piece) .empty

example : Piece.split "a=[1,2],\"x,y\"" = [⟨some "a", "[1,2]"⟩, ⟨none, "\"x,y\""⟩] := by
  decide +kernel
example : positionalName 7 = "_p007" ∧ positionalName 1234 = "_p1234" := by decide +kernel

end Params

end SolidExport
