/-
  The program: converts one file to another.

  It reads the input, then either prints its tree or converts it.  The precision is checked before
  the tag map is read, and both before the conversion; the output is written last, so a run that
  fails writes nothing.
-/
import SolidExport.CommandLine.Script
import SolidExport.Conversion

namespace SolidExport.Program

/-- The name that the program puts before its messages. -/
def name : String := "csg2xcsg"

/-- `notice text` — a message of the program, under its name. -/
def notice (text : String) : String := name ++ ": " ++ text

/-- `warningLines warnings` — the lines of some warnings, without line ends. -/
def warningLines (warnings : List Warning) : List String :=
  warnings.map fun w => notice w.message

/-! ## Parts of a run -/

/-- `dump text` — prints the tree of a text.  A text without a tree fails, its warnings being
printed. -/
def dump (text : String) : Script :=
  let scan := Statement.scan text
  .warn (warningLines scan.warnings) <|
    match scan.result >>= Node.ofStatements with
    | .ok root => .print .out (root.listing ++ "\n") (.done none)
    | .error f => .fail (.fault f)

/-- `convert o text output` — converts a text and writes the result to the path `output`.  A fault
is the program's own message; a number out of range is caught by nobody. -/
def convert (o : ConvertOptions) (text output : String) : Script :=
  let c := Conversion.ofText o text
  .warn (warningLines c.warnings) <|
    match c.result with
    | .ok result =>
      .write output result.xml (.print .out (notice ("wrote " ++ output) ++ "\n") (.done none))
    | .error (.fault f) => .refuse (.message f.message)
    | .error (.range r) => .fail (.range r)

/-- `precision? text` — the precision that a text asks for, if it is a possible one. -/
def precision? (text : String) : Option Float :=
  (readNumber? text).filter fun x => (precisionDigits? x).isSome

/-- `withTagMap path next` — goes on with the tag map of a file, or with the standard one if no file
is given.  An empty path is none. -/
def withTagMap (path : Option String) (next : TagMap → Script) : Script :=
  match path.filter (· ≠ "") with
  | none => next .standard
  | some path => .read path fun text =>
    match TagMap.ofJson path text with
    | .ok map => next map
    | .error f => .fail (.fault f)

/-! ## The run -/

/-- `ofSettings folder s input` — the run for the settings `s` and an input, in a working folder.  A
dump needs neither a precision nor a tag map, and checks none. -/
def ofSettings [Trig] (folder : String) (s : Settings) (input : String) : Script :=
  .read input fun text =>
    if s.dump then dump text
    else match precision? s.precision with
      | none =>
        .refuse (.message ("Invalid precision '" ++ s.precision ++ "': expected 1..17"))
      | some precision =>
        withTagMap s.tagMap fun map =>
          convert ⟨map, s.skipEmpty, precision⟩ text
            (Path.resolve folder (s.output.getD (Path.outputPath input)))

/-- `ofArguments folder arguments` — the run for some arguments, in a working folder. -/
def ofArguments [Trig] (folder : String) (arguments : List String) : Script :=
  match Settings.read arguments with
  | .error r => .refuse r
  | .ok s =>
    match s.input with
    | none => .refuse .missingInput
    | some input => ofSettings folder s input

/-- A program that is run computes with the sine and the cosine that are right to the last digit. -/
instance : Trig := .rounded

end SolidExport.Program
