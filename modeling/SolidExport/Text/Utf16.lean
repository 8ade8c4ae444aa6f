/-
  Texts as UTF-16 code units.

  A character above U+FFFF is a pair of surrogates.  A surrogate that is no half of a pair stands
  for no character and is read as U+FFFD.
-/

namespace SolidExport.Text

/-- `units c` — the code units of the character `c`: one, or a pair of surrogates above U+FFFF. -/
def units (c : Char) : List Nat :=
  let n := c.toNat
  if n < 0x10000 then [n] else [0xD800 + (n - 0x10000) / 0x400, 0xDC00 + (n - 0x10000) % 0x400]

/-- `isHighUnit u` — whether the code unit `u` is the first half of a pair. -/
def isHighUnit (u : Nat) : Bool := 0xD800 ≤ u && u < 0xDC00

/-- `isLowUnit u` — whether the code unit `u` is the second half of a pair. -/
def isLowUnit (u : Nat) : Bool := 0xDC00 ≤ u && u < 0xE000

/-- The mark that is read in the place of what is no character. -/
def replacement : Char := '�'

/-- `ofUnit u` — the character of the code unit `u` by itself, where half a pair is none. -/
def ofUnit (u : Nat) : Char := if isHighUnit u || isLowUnit u then replacement else Char.ofNat u

/-- `ofUnits us` — the characters of the code units `us`, with every pair in them taken as one.  On
the units of a text this gives the text back. -/
def ofUnits : List Nat → List Char
  | [] => []
  | [u] => [ofUnit u]
  | u :: v :: rest =>
    if isHighUnit u && isLowUnit v then
      Char.ofNat (0x10000 + (u - 0xD800) * 0x400 + (v - 0xDC00)) :: ofUnits rest
    else ofUnit u :: ofUnits (v :: rest)

example : ofUnits (units '😀' ++ units 'a' ++ [0xD83D]) = ['😀', 'a', replacement] := by decide

end SolidExport.Text
