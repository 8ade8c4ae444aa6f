/-
  White space, and cutting it from the ends of a text.

  `isBlank` is the class of characters that every reader of this library skips: the control
  characters tab to carriage return, the space, the no-break space, the Unicode space
  separators, the two Unicode line ends and the byte order mark.

  `trim` works on the list of characters; `trimmed` is the same on strings.
-/

namespace SolidExport.Text

/-! ## The class -/

/-- `isBlank c` — whether `c` is white space: U+0009 to U+000D, the space separators of Unicode,
U+2028, U+2029 and U+FEFF. -/
def isBlank (c : Char) : Bool :=
  let n := c.toNat
  (0x09 ≤ n && n ≤ 0x0D) || n == 0x20 || n == 0xA0 || n == 0x1680
    || (0x2000 ≤ n && n ≤ 0x200A) || n == 0x2028 || n == 0x2029
    || n == 0x202F || n == 0x205F || n == 0x3000 || n == 0xFEFF

/-! ## Trimming -/

/-- `trimStart cs` — the text `cs` from its first character that is not white space. -/
def trimStart (cs : List Char) : List Char := cs.dropWhile isBlank

/-- `trimEnd cs` — the text `cs` up to its last character that is not white space. -/
def trimEnd (cs : List Char) : List Char := (cs.reverse.dropWhile isBlank).reverse

/-- `trim cs` — the text `cs` without white space at its two ends.  What is inside stays. -/
def trim (cs : List Char) : List Char := trimEnd (trimStart cs)

/-- `trimmed s` — `trim` on strings. -/
def trimmed (s : String) : String := String.ofList (trim s.toList)

/-- `isAllBlank s` — whether the text `s` holds nothing but white space. -/
def isAllBlank (s : String) : Bool := s.toList.all isBlank

/-- The four characters that ASCII calls white space are blank. -/
example : " \t\n\r".toList.all isBlank = true := by decide

/-- The next-line control character is not. -/
example : isBlank (Char.ofNat 0x85) = false := by decide

example : trim " a b\t".toList = "a b".toList := by decide

end SolidExport.Text
