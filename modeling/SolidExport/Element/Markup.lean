/-
  Elements as XML text.

  A document is a declaration and one element.  An element without children is one line; any other
  has a line for its start, the lines of its children one step further in, and a line for its end.
  Numbers are rounded to some significant digits first; one to seventeen are possible.
-/
import SolidExport.Element.Basic
import SolidExport.Fault

namespace SolidExport

/-! ## Attribute values -/

/-- Significant digits of a number where nothing else is said. -/
def defaultPrecision : Float := 12.0

/-- `precisionDigits? precision` — the number of significant digits that a precision stands for, if
it is a possible one. -/
def precisionDigits? (precision : Float) : Option Nat :=
  (Double.toNat? precision).filter fun n => 1 ≤ n && n ≤ 17

/-- `formatNumber precision value` — the text of a number rounded to `precision` significant digits.
It is the shortest text of the rounded number, so zeros at the end are not written. -/
def formatNumber (precision : Float) (value : Float) : Except RangeFault String :=
  if !value.isFinite then .error (.nonFinite value)
  else match precisionDigits? precision with
    | none => .error (.precision precision)
    | some digits => .ok (numberText (Double.roundSignificant digits value))

/-- `a.format precision` — the text of the attribute value `a`, before escapes. -/
def Attribute.format (precision : Float) : Attribute → Except RangeFault String
  | .number value => formatNumber precision value
  | .boolean value => .ok (if value then "true" else "false")
  | .text value => .ok value

/-! ## Escapes -/

/-- `escapeChar c` — the character `c` inside an attribute value: itself, or an entity. -/
def escapeChar : Char → List Char
  | '<' => "&lt;".toList
  | '>' => "&gt;".toList
  | '&' => "&amp;".toList
  | '"' => "&quot;".toList
  | '\'' => "&apos;".toList
  | c => [c]

/-- `escape s` — the text `s` inside an attribute value. -/
def escape (s : String) : String := String.ofList (s.toList.flatMap escapeChar)

/-! ## Lines -/

namespace Element

/-- `attributeMarkup precision a` — the attribute `a` behind a space, its value escaped. -/
def attributeMarkup (precision : Float) (a : String × Attribute) : Except RangeFault String := do
  let text ← a.2.format precision
  return " " ++ a.1 ++ "=\"" ++ escape text ++ "\""

/-- `attributesMarkup precision attributes` — all attributes of an element in a row. -/
def attributesMarkup (precision : Float) (attributes : List (String × Attribute)) :
    Except RangeFault String := do
  let texts ← attributes.mapM (attributeMarkup precision)
  return String.join texts

/-- `margin indent depth` — what stands in front of a line at a depth. -/
def margin (indent : String) (depth : Nat) : String :=
  String.join (List.replicate depth indent)

mutual

/-- `e.lines precision indent depth` — the lines of the element `e` at a depth. -/
def lines (precision : Float) (indent : String) (depth : Nat) :
    Element → Except RangeFault (List String)
  | ⟨tag, attributes, children⟩ => do
    let start := margin indent depth ++ "<" ++ tag ++ (← attributesMarkup precision attributes)
    match children with
    | [] => return [start ++ "/>"]
    | c :: cs => do
      let inner ← childrenLines precision indent (depth + 1) (c :: cs)
      return (start ++ ">") :: inner ++ [margin indent depth ++ "</" ++ tag ++ ">"]

/-- `childrenLines precision indent depth es` — the lines of the elements `es` at a depth, in a
row. -/
def childrenLines (precision : Float) (indent : String) (depth : Nat) :
    List Element → Except RangeFault (List String)
  | [] => return []
  | c :: cs => do
    let front ← c.lines precision indent depth
    let back ← childrenLines precision indent depth cs
    return front ++ back

end

/-- The first line of a document, whatever is in it. -/
def declaration : String := "<?xml version=\"1.0\" encoding=\"UTF-8\"?>"

/-- The margin step where nothing else is said. -/
def defaultIndent : String := "  "

/-- `e.markup precision indent` — the document of the element `e`, with a line end behind every
line. -/
def markup (e : Element) (precision : Float)
    (indent : String) : Except RangeFault String := do
  let body ← e.lines precision indent 0
  return String.join ((declaration :: body).map (· ++ "\n"))

end Element

end SolidExport
