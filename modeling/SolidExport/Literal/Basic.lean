/-
  Literals: the values that parameters take.

  A literal is a number, a boolean, a string or a vector of literals, and knows the line it was
  written on.  A number also keeps the text it was written as.

  The views `toNumber`, `toInteger` and `toBoolean` refuse a literal of another kind.  Items are
  taken by `get`, where a scalar counts as a vector of itself.
-/
import SolidExport.Decimal.Reader
import SolidExport.Fault

namespace SolidExport

/-- A value as written in a parameter list. -/
inductive Literal where
  | number (line : Int) (value : Float) (text : String)
  | boolean (line : Int) (value : Bool)
  | string (line : Int) (value : String)
  | vector (line : Int) (items : List Literal)

namespace Literal

/-- `v.line` — the line that the literal `v` was read on, that of its statement. -/
def line : Literal → Int
  | .number line _ _ | .boolean line _ | .string line _ | .vector line _ => line

/-- `v.isVector` — whether the literal `v` is a vector. -/
def isVector : Literal → Bool
  | .vector .. => true
  | _ => false

/-- `v.items` — the items of the vector `v`; a scalar is its own only item. -/
def items : Literal → List Literal
  | .vector _ items => items
  | scalar => [scalar]

/-- `v.size` — how many items the literal `v` has, one for a scalar. -/
def size (v : Literal) : Nat := v.items.length

/-- `v.vectorSize?` — how many items the vector `v` has; none for a scalar, which is no vector of
one here. -/
def vectorSize? : Literal → Option Nat
  | .vector _ items => some items.length
  | _ => none

/-! ## Text -/

/-- `booleanText value` — the word for a truth value. -/
def booleanText (value : Bool) : String := if value then "true" else "false"

mutual

/-- `v.text` — the text of the literal `v`: a number as it was written, a string without quotes, a
vector in brackets without white space. -/
def text : Literal → String
  | .number _ _ text => text
  | .boolean _ value => booleanText value
  | .string _ value => value
  | .vector _ items => "[" ++ ",".intercalate (texts items) ++ "]"

/-- `texts vs` — the texts of the literals `vs`. -/
def texts : List Literal → List String
  | [] => []
  | v :: vs => v.text :: texts vs

end

/-- `ofFloat line value` — a number literal whose text is the shortest one. -/
def ofFloat (line : Int) (value : Float) : Literal := .number line value (numberText value)

/-! ## Views -/

/-- `v.toNumber` — the number that the literal `v` is.  A vector of one number is none. -/
def toNumber : Literal → Except Fault Float
  | .number _ value _ => .ok value
  | v => .error (.unlocated (.numberExpected v.text v.line))

/-- `v.toInteger` — the number that the literal `v` is, without its fraction. -/
def toInteger (v : Literal) : Except Fault Float := v.toNumber.map Double.trunc

/-- `v.toBoolean` — the truth value of the literal `v`; a number is true unless it is zero. -/
def toBoolean : Literal → Except Fault Bool
  | .boolean _ value => .ok value
  | .number _ value _ => .ok (value != 0.0)
  | v => .error (.unlocated (.booleanExpected v.text v.line))

/-- `v.get index` — the item of the literal `v` at an index that may be any number.  The fault names
the line, and says what `v` is. -/
def get (v : Literal) (index : Float) : Except Fault Literal :=
  match (Double.toNat? index).bind (v.items[·]?) with
  | some item => .ok item
  | none => .error <| .unlocated <| match v with
    | .vector line items => .indexPastVector index items.length line
    | scalar => .indexPastScalar index scalar.text scalar.line

end Literal

end SolidExport
