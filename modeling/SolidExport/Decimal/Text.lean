/-
  The text of a number.

  `numberText` writes a double with the fewest digits that read back.  A `Layout` says how wide a
  number may get before an exponent is used; `Layout.standard` is the one this library writes:
  positional from `0.000001` up to twenty-one digits before the point, an exponent with its sign
  beyond, no zero and no point that says nothing, and no sign on zero.
-/
import SolidExport.Decimal.Shortest

namespace SolidExport

/-- How far positional digits go. -/
structure Layout where
  /-- The most digits written before the point. -/
  whole : Nat
  /-- The most zeros written between the point and the first digit. -/
  zeros : Nat
deriving DecidableEq, Repr

namespace Layout

/-- Twenty-one digits before the point, five zeros after it.  Every number of a document is written
so. -/
def standard : Layout := ⟨21, 5⟩

/-- `exponentText e` — the exponent part: the letter, a sign always, no leading zero. -/
def exponentText (e : Int) : List Char :=
  'e' :: (if e < 0 then '-' else '+') :: Decimal.digitsOf e.natAbs

/-- `l.render d` — the digits of a positive decimal `d` whose coefficient does not end in zero, with
a point or an exponent where the layout `l` puts them. -/
def render (l : Layout) (d : Decimal) : List Char :=
  let digits := Decimal.digitsOf d.coefficient
  let count : Int := digits.length
  -- how many digits stand before the point
  let point := count + d.exponent
  if count ≤ point ∧ point ≤ l.whole then
    digits ++ List.replicate (point - count).toNat '0'
  else if 0 < point ∧ point ≤ l.whole then
    digits.take point.toNat ++ '.' :: digits.drop point.toNat
  else if -(l.zeros : Int) ≤ point ∧ point ≤ 0 then
    '0' :: '.' :: (List.replicate (-point).toNat '0' ++ digits)
  else match digits with
    | [] => []
    | [c] => c :: exponentText (point - 1)
    | c :: rest => c :: '.' :: (rest ++ exponentText (point - 1))

end Layout

/-- `numberText x` — the text of the double `x`: the fewest digits that read back, zero without
sign. -/
def numberText (x : Float) : String :=
  match Binary.ofFloat? x with
  | none => if x.isNaN then "NaN" else if x < 0.0 then "-Infinity" else "Infinity"
  | some b =>
    if b.significand = 0 then "0"
    else
      let text := Layout.standard.render b.shortest
      String.ofList (if b.negative then '-' :: text else text)

/-- `integerText n` — the text of the integer `n`. -/
def integerText (n : Int) : String :=
  match n with
  | .ofNat k => String.ofList (Decimal.digitsOf k)
  | .negSucc k => String.ofList ('-' :: Decimal.digitsOf (k + 1))

/-- `countText n` — the text of the natural number `n`. -/
def countText (n : Nat) : String := String.ofList (Decimal.digitsOf n)

example : Layout.standard.render ⟨1, 20⟩ = "100000000000000000000".toList := by decide +kernel
example : Layout.standard.render ⟨1, 21⟩ = "1e+21".toList := by decide +kernel
example : Layout.standard.render ⟨125, -2⟩ = "1.25".toList := by decide +kernel
example : Layout.standard.render ⟨15, -7⟩ = "0.0000015".toList := by decide +kernel
example : Layout.standard.render ⟨15, -8⟩ = "1.5e-7".toList := by decide +kernel

end SolidExport
