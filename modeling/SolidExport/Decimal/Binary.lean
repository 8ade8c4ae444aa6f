/-
  Finite doubles as exact numbers.

  Every finite double is `± significand · 2 ^ exponent` for natural `significand`, read off its
  bits by `Binary.ofFloat?`.  On that form the integer roundings (`trunc`, `ceil`, `round`) are
  plain division of naturals, and the exact decimal value (`Binary.toDecimal`) is a
  multiplication by a power of five or of two.
-/
import SolidExport.Decimal.Basic

namespace SolidExport

-- Powers are those of the core library, also next to the algebra of monoids.
attribute [local instance (high)] instPowNat

/-- The number `± significand · 2 ^ exponent`.  Zero has a sign here as well. -/
structure Binary where
  negative : Bool
  significand : Nat
  exponent : Int
deriving DecidableEq, Repr

namespace Binary

/-- `ofFloat? x` — the exact value of the finite double `x`; none for an infinity or a NaN. -/
def ofFloat? (x : Float) : Option Binary :=
  let bits : Nat := x.toBits.toNat
  let fraction : Nat := bits % 2 ^ (52 : Nat)
  let biased : Nat := bits / 2 ^ (52 : Nat) % 2 ^ (11 : Nat)
  let negative := bits / 2 ^ (63 : Nat) == 1
  if biased = 2047 then none
  else if biased = 0 then some ⟨negative, fraction, -1074⟩
  else some ⟨negative, fraction + 2 ^ (52 : Nat), (biased : Int) - 1075⟩

/-- `b.toDecimal` — the magnitude of `b` as an exact decimal: a negative power of two is a power of
five over one of ten. -/
def toDecimal (b : Binary) : Decimal :=
  match b.exponent with
  | .ofNat e => ⟨b.significand * 2 ^ e, 0⟩
  | .negSucc e => ⟨b.significand * 5 ^ (e + 1), .negSucc e⟩

/-- `b.signed n` — the natural `n` with the sign of `b`; zero keeps the sign too. -/
def signed (b : Binary) (n : Nat) : Float :=
  if b.negative then -(Float.ofNat n) else Float.ofNat n

end Binary

/-! ## Integer roundings of doubles -/

namespace Double

/-- `trunc x` — the nearest integer toward zero.  A double without a fraction is its own; so are the
infinities and NaN. -/
def trunc (x : Float) : Float :=
  match Binary.ofFloat? x with
  | none => x
  | some b => match b.exponent with
    | .ofNat _ => x
    | .negSucc e => b.signed (b.significand / 2 ^ (e + 1))

/-- `ceil x` — the least integer that is not below `x`. -/
def ceil (x : Float) : Float :=
  match Binary.ofFloat? x with
  | none => x
  | some b => match b.exponent with
    | .ofNat _ => x
    | .negSucc e =>
      let unit := 2 ^ (e + 1)
      if b.negative then b.signed (b.significand / unit)
      else b.signed ((b.significand + unit - 1) / unit)

/-- `round x` — the nearest integer; a half goes up.  A negative number that rounds to zero gives
`-0`. -/
def round (x : Float) : Float :=
  match Binary.ofFloat? x with
  | none => x
  | some b => match b.exponent with
    | .ofNat _ => x
    | .negSucc e =>
      let unit := 2 ^ (e + 1)
      if b.negative then b.signed ((2 * b.significand + unit - 1) / (2 * unit))
      else b.signed ((2 * b.significand + unit) / (2 * unit))

/-- `isInteger x` — whether `x` is finite and has no fraction. -/
def isInteger (x : Float) : Bool :=
  match Binary.ofFloat? x with
  | none => false
  | some b => match b.exponent with
    | .ofNat _ => true
    | .negSucc e => b.significand % 2 ^ (e + 1) == 0

/-- `toNat? x` — the natural number that `x` is, if it is one.  Negative zero is zero. -/
def toNat? (x : Float) : Option Nat :=
  match Binary.ofFloat? x with
  | none => none
  | some b =>
    if b.negative && b.significand != 0 then none
    else match b.exponent with
      | .ofNat e => some (b.significand * 2 ^ e)
      | .negSucc e =>
        if b.significand % 2 ^ (e + 1) = 0 then some (b.significand / 2 ^ (e + 1)) else none

/-- `isNegativeZero x` — whether `x` is the zero with a sign, which no comparison tells from the
other. -/
def isNegativeZero (x : Float) : Bool := x.toBits == 0x8000000000000000

/-- `roundSignificant digits x` — `x` rounded to at most `digits` significant digits, a half away
from zero, then to the nearest double.  Zero loses its sign; infinities and NaN stay. -/
def roundSignificant (digits : Nat) (x : Float) : Float :=
  match Binary.ofFloat? x with
  | none => x
  | some b =>
    if b.significand = 0 then 0.0
    else
      let y := (b.toDecimal.roundTo digits).toFloat
      if b.negative then -y else y

example : trunc (-2.5) = -2.0 := by decide +kernel
example : ceil 9.000000000000002 = 10.0 := by decide +kernel
example : round 2.5 = 3.0 ∧ round (-2.5) = -2.0 := by decide +kernel
example : isNegativeZero (round (-0.5)) = true := by decide +kernel
example : toNat? 3.0 = some 3 ∧ toNat? 3.5 = none ∧ toNat? (-0.0) = some 0 := by decide +kernel

end Double

end SolidExport
