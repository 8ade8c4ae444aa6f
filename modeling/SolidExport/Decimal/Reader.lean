/-
  Reading numbers.

  `Decimal.read?` reads one signed decimal: digits with at most one point among them and at least
  one digit beside it, then perhaps an exponent.  Nothing may stand before or after.

  `readNumber?` reads what a user may type for a number: white space around it is ignored, an empty
  text is zero, and besides decimals there are the two infinities and whole numbers in base 16, 8
  and 2 behind `0x`, `0o` and `0b`.
-/
import SolidExport.Decimal.Text
import SolidExport.Text.Blank

namespace SolidExport

/-! ## Digits -/

/-- `digitValue? base c` — the value of the ASCII digit `c` in a base up to 16; none for any other
character. -/
def digitValue? (base : Nat) (c : Char) : Option Nat :=
  let n := c.toNat
  let value :=
    if 48 ≤ n ∧ n ≤ 57 then some (n - 48)
    else if 97 ≤ n ∧ n ≤ 102 then some (n - 87)
    else if 65 ≤ n ∧ n ≤ 70 then some (n - 55)
    else none
  value.filter (· < base)

/-- `isDigit c` — whether the character `c` is one of the ten ASCII digits. -/
def isDigit (c : Char) : Bool := (digitValue? 10 c).isSome

/-- `digitsValue base cs` — the number that a text of digits names; other characters count as
zero. -/
def digitsValue (base : Nat) (cs : List Char) : Nat :=
  cs.foldl (fun n c => base * n + (digitValue? base c).getD 0) 0

namespace Decimal

/-! ## Decimals -/

/-- `readSign cs` — a sign, read off the front of `cs`: whether it is a minus, and what follows. -/
def readSign : List Char → Bool × List Char
  | '+' :: cs => (false, cs)
  | '-' :: cs => (true, cs)
  | cs => (false, cs)

/-- `readExponent? cs` — the exponent part that ends a decimal: nothing, or the letter and a whole
number. -/
def readExponent? : List Char → Option Int
  | [] => some 0
  | c :: cs =>
    if c = 'e' ∨ c = 'E' then
      let (negative, digits) := readSign cs
      if digits ≠ [] ∧ digits.all isDigit then
        let n : Int := digitsValue 10 digits
        some (if negative then -n else n)
      else none
    else none

/-- `readUnsigned? cs` — a whole text read as a decimal without a sign. -/
def readUnsigned? (cs : List Char) : Option Decimal :=
  let whole := cs.takeWhile isDigit
  let rest := cs.dropWhile isDigit
  let (fraction, rest) := match rest with
    | '.' :: r => (r.takeWhile isDigit, r.dropWhile isDigit)
    | r => ([], r)
  if whole = [] ∧ fraction = [] then none
  else (readExponent? rest).map fun e => ⟨digitsValue 10 (whole ++ fraction), e - fraction.length⟩

/-- `read? cs` — a whole text read as a decimal: its sign and its magnitude.  The sign is kept
apart, since a zero may have one. -/
def read? (cs : List Char) : Option (Bool × Decimal) :=
  let (negative, digits) := readSign cs
  (readUnsigned? digits).map (negative, ·)

/-- `readFloat? cs` — a whole text read as a decimal and taken to the nearest double.  One that is
too large is an infinity. -/
def readFloat? (cs : List Char) : Option Float :=
  (read? cs).map fun (negative, d) => if negative then -d.toFloat else d.toFloat

end Decimal

/-! ## Typed numbers -/

/-- `readWhole? base cs` — a whole number of digits in `base`, at least one, as a double. -/
def readWhole? (base : Nat) (cs : List Char) : Option Float :=
  if cs ≠ [] ∧ cs.all (fun c => (digitValue? base c).isSome) then
    some (Decimal.toFloat ⟨digitsValue base cs, 0⟩)
  else none

/-- `readNumber? text` — a number as a user may type it. -/
def readNumber? (text : String) : Option Float :=
  match Text.trim text.toList with
  | [] => some 0.0
  | '0' :: 'x' :: cs | '0' :: 'X' :: cs => readWhole? 16 cs
  | '0' :: 'o' :: cs | '0' :: 'O' :: cs => readWhole? 8 cs
  | '0' :: 'b' :: cs | '0' :: 'B' :: cs => readWhole? 2 cs
  | cs =>
    let (negative, rest) := Decimal.readSign cs
    if rest = "Infinity".toList then some (if negative then -(1.0 / 0.0) else 1.0 / 0.0)
    else Decimal.readFloat? cs

example : Decimal.read? "-1.50e-3".toList = some (true, ⟨150, -5⟩) := by decide +kernel
example : Decimal.read? "5.".toList = some (false, ⟨5, 0⟩) := by decide +kernel
example : Decimal.read? ".".toList = none ∧ Decimal.read? "1e".toList = none := by decide +kernel
example : (readNumber? " 0x10 ").map numberText = some "16" := by decide +kernel

end SolidExport
