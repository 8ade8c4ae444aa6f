/-
  What can go wrong.

  A `Fault` is a cause with, where it is known, the statement it was found in.  Every cause has one
  code, one sentence and its details (`Cause.code`, `Cause.text`, `Cause.details`); the message of a
  fault is that sentence, framed by line and signature once the location is known.

  A `RangeFault` is a number that cannot be written or counted with; it has no location.  One kind of
  it stands for more than a refusal: an `endless` count is never got to the end of, so nothing comes
  behind it and there is nothing to say.  A `Failure` is a fault or a number out of range, and a
  `Warning` is a remark that stops nothing.
-/
import SolidExport.Decimal.Text

namespace SolidExport

/-! ## Where -/

/-- The statement a fault belongs to, as messages name it. -/
structure Location where
  line : Int
  tag : String
  signature : String
deriving DecidableEq, Repr

/-! ## What -/

/-- The kinds of fault, for whoever has to tell them apart without reading messages. -/
inductive FaultCode where
  | csgSyntax
  | treeStructure
  | csgUnsupported
  | paramMissing
  | paramMalformed
  | paramDomain
  | shapeUnsupported
  | dimensionUnresolved
deriving DecidableEq, Repr

/-- `c.label` — the name of a kind of fault. -/
def FaultCode.label : FaultCode → String
  | .csgSyntax => "csg_syntax"
  | .treeStructure => "tree_structure"
  | .csgUnsupported => "csg_unsupported"
  | .paramMissing => "param_missing"
  | .paramMalformed => "param_malformed"
  | .paramDomain => "param_domain"
  | .shapeUnsupported => "shape_unsupported"
  | .dimensionUnresolved => "dimension_unresolved"

/-- One detail of a fault: a value that its sentence may mention. -/
inductive Detail where
  | text (value : String)
  | number (value : Float)
  | integer (value : Int)
  | integers (values : List Int)

/-- Why something was refused, with all that the sentence and the details need. -/
inductive Cause where
  -- scanning a text
  | bodyWithoutStatement
  | unterminatedString
  | unterminatedComment
  | missingSemicolon
  | unbalancedBrace
  | unbalancedParenthesis
  | unterminatedStatement
  | missingBraces (count : Nat)
  -- reading a signature
  | invalidStatement (line : Int) (signature : String)
  | unbalancedParentheses
  -- nesting statements
  | unexpectedLevel (level : Int)
  | skippedLevel (level parent : Int)
  -- using a literal
  | indexPastScalar (index : Float) (text : String) (line : Int)
  | indexPastVector (index : Float) (size : Nat) (line : Int)
  | numberExpected (text : String) (line : Int)
  | booleanExpected (text : String) (line : Int)
  -- reading a matrix; a scalar has no size
  | matrixRows (found : Option Nat)
  | matrixColumns (row : Nat) (found : Option Nat)
  | matrixCell (row col : Nat) (text : String)
  -- reading a parameter
  | missingParameter (name tag : String)
  | missingMatrix (name tag : String)
  | numberParameter (name text : String)
  | booleanParameter (name text : String)
  | notFinite (name text : String)
  | notPositive (name : String) (value : Float)
  | negative (name : String) (value : Float)
  | tooFewExtents (name : String) (expected found : Nat)
  | noRadius (sum : Float)
  -- reading a shape
  | polygonHoles (paths : Nat)
  | tooFewVertices (found : Nat)
  | pathIndex (index : Float) (count : Nat)
  | polygonPoint (index : Float) (text : String)
  | tooFewPoints (found : Nat)
  | polyhedronPoint (index found : Nat) (text : String)
  | faceSize (face found : Nat)
  | facePoint (face : Nat) (index : Float)
  | twistedExtrusion (twist : Float)
  | tooFewOperands (tag target : String) (count : Nat)
  | mixedDimensions (tag target : String) (dimensions : List Int)
  -- placing a node
  | unsupported (tag : String)
  | unsupportedFile (tag : String)
  | emptyDocument
  | unresolvedDimension (tag template : String)
  | noEncoder (tag target : String)
  -- building a tag map
  | emptySource
  | emptyTarget (source : String)
  | misplacedWildcard (target : String)
  | invalidJson (path reason : String)
  | notAnObject (path : String)
  | targetNotText (source : String)

namespace Cause

/-- `c.code` — the kind of the cause `c`. -/
def code : Cause → FaultCode
  | bodyWithoutStatement | unterminatedString | unterminatedComment | missingSemicolon
  | unbalancedBrace | unbalancedParenthesis | unterminatedStatement | missingBraces _
  | invalidStatement .. | unbalancedParentheses
  | emptySource | emptyTarget _ | misplacedWildcard _ | invalidJson .. | notAnObject _
  | targetNotText _ => .csgSyntax
  | unexpectedLevel _ | skippedLevel .. => .treeStructure
  | indexPastScalar .. | indexPastVector .. | numberExpected .. | booleanExpected ..
  | matrixRows _ | matrixColumns .. | numberParameter .. | booleanParameter .. | tooFewExtents ..
  | tooFewVertices _ | pathIndex .. | polygonPoint .. | tooFewPoints _ | polyhedronPoint ..
  | faceSize .. | facePoint .. => .paramMalformed
  | missingParameter .. | missingMatrix .. => .paramMissing
  | matrixCell .. | notFinite .. | notPositive .. | negative .. | noRadius _ => .paramDomain
  | polygonHoles _ | twistedExtrusion _ | tooFewOperands .. | mixedDimensions .. => .shapeUnsupported
  | unsupported _ | unsupportedFile _ | noEncoder .. => .csgUnsupported
  | emptyDocument | unresolvedDimension .. => .dimensionUnresolved

/-- `sizeText found` — a size that was found, or the words for what has none. -/
def sizeText : Option Nat → String
  | some n => countText n
  | none => "a scalar"

/-- `c.text` — the sentence of the cause `c`. -/
def text : Cause → String
  | bodyWithoutStatement => "'\x7b' without a statement"
  | unterminatedString => "unterminated string"
  | unterminatedComment => "unterminated comment"
  | missingSemicolon => "missing ';' before '\x7d'"
  | unbalancedBrace => "unbalanced '\x7d'"
  | unbalancedParenthesis => "unbalanced ')'"
  | unterminatedStatement => "unterminated statement"
  | missingBraces count => "missing " ++ countText count ++ " closing '\x7d'"
  | invalidStatement line signature =>
    "csg line " ++ integerText line ++ ": invalid statement '" ++ signature ++ "'"
  | unbalancedParentheses => "unbalanced parentheses"
  | unexpectedLevel level => "unexpected nesting level " ++ integerText level
  | skippedLevel level parent =>
    "nesting level " ++ integerText level ++ " skips levels below parent level " ++ integerText parent
  | indexPastScalar index text _ =>
    "index " ++ numberText index ++ " out of range for scalar " ++ text
  | indexPastVector index size _ =>
    "index " ++ numberText index ++ " out of range for vector of size " ++ countText size
  | numberExpected text _ => "expected a number, found " ++ text
  | booleanExpected text _ => "expected a boolean, found " ++ text
  | matrixRows found => "transform matrix must have 4 rows, found " ++ sizeText found
  | matrixColumns row found =>
    "transform matrix row " ++ countText row ++ " must have 4 columns, found " ++ sizeText found
  | matrixCell row col text =>
    "transform matrix element (" ++ countText row ++ ", " ++ countText col
      ++ ") must be finite, found " ++ text
  | missingParameter name tag => "parameter '" ++ name ++ "' not found for " ++ tag
  | missingMatrix _ tag => "transform matrix not found for " ++ tag
  | numberParameter name text => "parameter '" ++ name ++ "' must be a number, found " ++ text
  | booleanParameter name text => "parameter '" ++ name ++ "' must be a boolean, found " ++ text
  | notFinite name text => name ++ " must be finite, found " ++ text
  | notPositive name value => name ++ " must be > 0, found " ++ numberText value
  | negative name value => name ++ " must be >= 0, found " ++ numberText value
  | tooFewExtents name expected found =>
    "parameter '" ++ name ++ "' must have " ++ countText expected ++ " values, found "
      ++ countText found
  | noRadius _ => "r1+r2 must be > 0"
  | polygonHoles _ => "polygon with internal hole(s) is not supported"
  | tooFewVertices found => "polygon needs at least 3 vertices, found " ++ countText found
  | pathIndex index count =>
    "polygon path index " ++ numberText index ++ " is outside 0.." ++ integerText ((count : Int) - 1)
  | polygonPoint index text =>
    "polygon point " ++ numberText index ++ " must have 2 values: " ++ text
  | tooFewPoints found =>
    "polyhedron with too few points, found " ++ countText found ++ ", expected at least 4"
  | polyhedronPoint index found text =>
    "polyhedron point " ++ countText index ++ " must have 3 values, found " ++ countText found
      ++ ": " ++ text
  | faceSize face found =>
    "polyhedron face " ++ countText face ++ " must have 3 or more values, found " ++ countText found
  | facePoint face index =>
    "polyhedron face " ++ countText face ++ " refers to missing point " ++ numberText index
  | twistedExtrusion _ => "linear_extrude with non-zero twist is not supported"
  | tooFewOperands tag target _ =>
    "Fewer than 2 children provided to '" ++ tag ++ "' --> " ++ target
  | mixedDimensions tag target _ =>
    "Mixed dimension children provided to '" ++ tag ++ "' --> " ++ target
  | unsupported tag => "'" ++ tag ++ "' is not supported"
  | unsupportedFile tag => "'" ++ tag ++ "' is not supported with this file type"
  | emptyDocument => "document contains no geometry"
  | unresolvedDimension tag template =>
    "node dimension could not be determined: '" ++ tag ++ "' --> " ++ template
  | noEncoder tag target => "Not supported: '" ++ tag ++ "' --> " ++ target
  | emptySource => "Tag map source tag must be a non-empty string"
  | emptyTarget source => "Tag map target for '" ++ source ++ "' must be a non-empty string"
  | misplacedWildcard target =>
    "Tag map target '" ++ target ++ "' may only carry '*' as its last character"
  | invalidJson path reason => "Tag map " ++ path ++ " is not valid JSON: " ++ reason
  | notAnObject path => "Tag map " ++ path ++ " must be a JSON object"
  | targetNotText source => "Tag map target for '" ++ source ++ "' must be a string"

/-- `c.details` — the details of the cause `c`, by name. -/
def details : Cause → List (String × Detail)
  | invalidStatement line _ => [("line", .integer line)]
  | unexpectedLevel level => [("level", .integer level)]
  | skippedLevel level parent => [("level", .integer level), ("expected", .integer (parent + 1))]
  | indexPastScalar _ _ line | indexPastVector _ _ line | numberExpected _ line
  | booleanExpected _ line => [("line", .integer line)]
  | matrixRows found => [("expected", .integer 4), ("found", .integer (found.getD 0))]
  | matrixColumns row found =>
    [("row", .integer row), ("expected", .integer 4), ("found", .integer (found.getD 0))]
  | matrixCell row col _ => [("row", .integer row), ("col", .integer col)]
  | missingParameter name _ | missingMatrix name _ | numberParameter name _
  | booleanParameter name _ | notFinite name _ => [("parameter", .text name)]
  | notPositive name value | negative name value =>
    [("parameter", .text name), ("value", .number value)]
  | tooFewExtents name expected found =>
    [("parameter", .text name), ("expected", .integer expected), ("found", .integer found)]
  | noRadius sum => [("parameter", .text "r1+r2"), ("value", .number sum)]
  | polygonHoles paths => [("paths", .integer paths)]
  | tooFewVertices found => [("parameter", .text "points"), ("found", .integer found)]
  | pathIndex index _ => [("parameter", .text "paths"), ("index", .number index)]
  | polygonPoint index _ => [("parameter", .text "points"), ("index", .number index)]
  | tooFewPoints found =>
    [("parameter", .text "points"), ("found", .integer found), ("expected", .integer 4)]
  | polyhedronPoint index found _ =>
    [("parameter", .text "points"), ("index", .integer index), ("expected", .integer 3),
      ("found", .integer found)]
  | faceSize face found =>
    [("parameter", .text "faces"), ("index", .integer face), ("expected", .integer 3),
      ("found", .integer found)]
  | facePoint _ index => [("parameter", .text "faces"), ("index", .number index)]
  | twistedExtrusion twist => [("parameter", .text "twist"), ("value", .number twist)]
  | tooFewOperands _ _ count => [("children", .integer count)]
  | mixedDimensions _ _ dimensions => [("dimensions", .integers dimensions)]
  | _ => []

end Cause

/-- A cause, and the statement it was found in where that is known. -/
structure Fault where
  cause : Cause
  location : Option Location

namespace Fault

/-- `unlocated cause` — a fault whose statement is not known yet. -/
def unlocated (cause : Cause) : Fault := ⟨cause, none⟩

/-- `located location cause` — a fault of a statement. -/
def located (location : Location) (cause : Cause) : Fault := ⟨cause, some location⟩

/-- `f.locate location` — the fault `f` with a location: its own, or else the given one.  So the
innermost statement that knows of it counts. -/
def locate (location : Location) (f : Fault) : Fault :=
  { f with location := f.location.orElse fun _ => some location }

/-- `f.message` — the message of the fault `f`: the sentence alone, or between the line and the
signature of its statement. -/
def message (f : Fault) : String :=
  match f.location with
  | none => f.cause.text
  | some l => "csg line " ++ integerText l.line ++ ": " ++ f.cause.text ++ ": " ++ l.signature

end Fault

/-! ## Numbers out of range -/

/-- A number that cannot be used, wherever it comes from. -/
inductive RangeFault where
  | sweepBounds (twist : Float) (slices : Option Float)
  | nonFinite (value : Float)
  | precision (digits : Float)
  /-- `endless count` — a number that counting up by one never passes.  Whoever counts that far does
  not come back: this is the outcome of a run that has none, and not one that can be caught. -/
  | endless (count : Float)

/-- `r.message` — the message of a number out of range; a run without end says nothing. -/
def RangeFault.message : RangeFault → String
  | .sweepBounds twist slices =>
    "sweep twist and slices must be finite, found " ++ numberText twist ++ " and "
      ++ (slices.map numberText).getD "undefined"
  | .nonFinite value => "cannot write non-finite number " ++ numberText value
  | .precision digits => "precision must be 1..17, found " ++ numberText digits
  | .endless _ => ""

/-- Anything that keeps a conversion from its result. -/
inductive Failure where
  | fault (f : Fault)
  | range (r : RangeFault)

namespace Failure

/-- `f.message` — the message of the failure `f`. -/
def message : Failure → String
  | .fault f => f.message
  | .range r => r.message

/-- `f.locate location` — the failure `f` with a location, if it is one that has locations. -/
def locate (location : Location) : Failure → Failure
  | .fault f => .fault (f.locate location)
  | .range r => .range r

end Failure

/-! ## Warnings -/

/-- A remark on the source, which stops nothing. -/
inductive Warning where
  | ignoredModifier (line : Int)
  | disabledStatement (line : Int) (statement : String)
  | emptyShape (line : Int) (tag : String)
deriving DecidableEq, Repr

/-- `w.message` — the text of the warning `w`, which names the line. -/
def Warning.message : Warning → String
  | .ignoredModifier line => "line " ++ integerText line ++ ": '!' modifier ignored"
  | .disabledStatement line statement =>
    "line " ++ integerText line ++ ": dropped disabled statement " ++ statement
  | .emptyShape line tag =>
    "line " ++ integerText line ++ ": dropped '" ++ tag ++ "' without geometry"

end SolidExport
