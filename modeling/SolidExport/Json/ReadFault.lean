/-
  Why a text is no JSON.

  A `ReadFault` is a cause and the place where reading stopped, counted in code units from the start
  of the text.  Its message names the place by line and column too.  A character that cannot stand
  where it does is named together with the text around it, ten units to either side.
-/
import SolidExport.Decimal.Reader
import SolidExport.Text.Utf16

namespace SolidExport.Json

/-- What was wrong at the place where reading stopped. -/
inductive ReadCause where
  /-- Something that begins no value, or a word that breaks off. -/
  | unexpected
  | nameOrBraceExpected
  | quotedNameExpected
  | colonExpected
  | commaOrBraceExpected
  | commaOrBracketExpected
  | trailingText
  | missingDigits
  | missingFraction
  | missingExponent
  | unterminatedString
  | badControl
  | badEscape
  | badUnicodeEscape
deriving DecidableEq, Repr

/-- Why reading stopped, and how many code units stand before that place. -/
structure ReadFault where
  cause : ReadCause
  position : Nat
deriving DecidableEq, Repr

namespace ReadFault

/-- `f.shift n` — the fault `f` of a text that has `n` more code units in front. -/
def shift (n : Nat) (f : ReadFault) : ReadFault := { f with position := n + f.position }

/-! ## Places -/

/-- A line and a column, both counted from one, as messages name them. -/
structure Place where
  line : Nat
  column : Nat
  /-- Whether the unit before was a carriage return, which a line feed only completes. -/
  returned : Bool
deriving DecidableEq, Repr

/-- `p.next unit` — the place behind one more code unit. -/
def Place.next (p : Place) (unit : Nat) : Place :=
  if unit = 10 then ⟨if p.returned then p.line else p.line + 1, 1, false⟩
  else if unit = 13 then ⟨p.line + 1, 1, true⟩
  else ⟨p.line, p.column + 1, false⟩

/-- `Place.behind units` — the place behind some code units from the start of a text. -/
def Place.behind (units : List Nat) : Place := units.foldl Place.next ⟨1, 1, false⟩

/-- `placeText units position` — how a place in a text is named. -/
def placeText (units : List Nat) (position : Nat) : String :=
  let p := Place.behind (units.take position)
  " at position " ++ countText position ++ " (line " ++ countText p.line ++ " column "
    ++ countText p.column ++ ")"

/-! ## Excerpts -/

/-- `quote units` — some code units between quotation marks, which are not escaped. -/
def quote (units : List Nat) : String := "\"" ++ String.ofList (Text.ofUnits units) ++ "\""

/-- How many units are shown on either side of a place. -/
def margin : Nat := 10

/-- `excerpt units position` — the text around a place: all of it if it is short, and else with dots
where it is cut. -/
def excerpt (units : List Nat) (position : Nat) : String :=
  let upTo := units.take (position + margin)
  if units.length ≤ 2 * margin then quote units
  else if position < margin then quote upTo ++ "..."
  else if position + margin < units.length then "..." ++ quote (upTo.drop (position - margin)) ++ "..."
  else "..." ++ quote (units.drop (position - margin))

/-- Texts that are often taken for JSON; they are named as a whole. -/
def familiar : List String := ["[object Object]", "NaN", "Infinity", "undefined"]

/-! ## Messages -/

/-- `unexpectedText units position` — the message for what stands at a place where it cannot. -/
def unexpectedText (units : List Nat) (position : Nat) : String :=
  match units.drop position with
  | [] => "Unexpected end of JSON input"
  | unit :: _ =>
    let c := Text.ofUnit unit
    if c = '"' then "Unexpected string in JSON" ++ placeText units position
    else if c = '-' ∨ isDigit c then "Unexpected number in JSON" ++ placeText units position
    else if familiar.contains (String.ofList (Text.ofUnits units)) then
      quote units ++ " is not valid JSON"
    else
      "Unexpected token '" ++ String.singleton c ++ "', " ++ excerpt units position
        ++ " is not valid JSON"

/-- `f.message text` — the message of the fault `f` that was found in a text. -/
def message (text : String) (f : ReadFault) : String :=
  let units := text.toList.flatMap Text.units
  let placed := fun sentence : String => sentence ++ placeText units f.position
  match f.cause with
  | .unexpected => unexpectedText units f.position
  | .nameOrBraceExpected => placed "Expected property name or '\x7d' in JSON"
  | .quotedNameExpected => placed "Expected double-quoted property name in JSON"
  | .colonExpected => placed "Expected ':' after property name in JSON"
  | .commaOrBraceExpected => placed "Expected ',' or '\x7d' after property value in JSON"
  | .commaOrBracketExpected => placed "Expected ',' or ']' after array element in JSON"
  | .trailingText => placed "Unexpected non-whitespace character after JSON"
  | .missingDigits => placed "No number after minus sign in JSON"
  | .missingFraction => placed "Unterminated fractional number in JSON"
  | .missingExponent => placed "Exponent part is missing a number in JSON"
  | .unterminatedString => placed "Unterminated string in JSON"
  | .badControl => placed "Bad control character in string literal in JSON"
  | .badEscape => placed "Bad escaped character in JSON"
  | .badUnicodeEscape => placed "Bad Unicode escape in JSON"

end ReadFault

end SolidExport.Json
