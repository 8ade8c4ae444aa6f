/-
  JSON values.

  An object keeps its members as written.  `ordered` gives them in the order in which a reader lists
  them: each name once, in the place of its first occurrence and with the value of its last; names
  that are whole numbers below `2 ^ 32 - 1` come before all others, by size.
-/
import SolidExport.Decimal.Reader
import SolidExport.Named

namespace SolidExport

/-- A JSON value.  A number is kept as written, since none is ever asked for. -/
inductive Json where
  | null
  | boolean (value : Bool)
  | number (text : String)
  | string (value : String)
  | array (items : List Json)
  | object (members : List (String × Json))

namespace Json

/-! ## The order of members -/

/-- `indexOf? name` — the number that a name is in its shortest decimal form, if it is one below
`2 ^ 32 - 1`. -/
def indexOf? (name : String) : Option Nat :=
  let digits := name.toList
  let n := digitsValue 10 digits
  if digits ≠ [] ∧ digits.all isDigit ∧ Decimal.digitsOf n = digits ∧ n < 4294967295 then some n
  else none

/-- `insertIndexed m ms` — a member with an index among others in ascending order; the indexes all
differ. -/
def insertIndexed {α : Type} (m : Nat × α) : List (Nat × α) → List (Nat × α)
  | [] => [m]
  | other :: rest => if m.1 < other.1 then m :: other :: rest else other :: insertIndexed m rest

/-- `ordered members` — the members of an object as they are listed. -/
def ordered {α : Type} (members : List (String × α)) : List (String × α) :=
  let distinct := members.foldl (fun ms (name, value) => Named.set name value ms) []
  let indexed := distinct.filterMap fun m => (indexOf? m.1).map (·, m)
  let named := distinct.filter fun m => (indexOf? m.1).isNone
  (indexed.foldr insertIndexed []).map (·.2) ++ named

example : ordered [("b", 1), ("10", 2), ("2", 3), ("b", 4), ("01", 5)]
    = [("2", 3), ("10", 2), ("b", 4), ("01", 5)] := by decide +kernel

end Json

end SolidExport
