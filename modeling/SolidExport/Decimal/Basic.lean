/-
  Decimal numbers: a natural coefficient and a power of ten.

  A `Decimal` is the meeting point of the number formats: a literal is read to one, a double is
  exactly one, rounding to some significant digits works on one, and the text of a number is
  laid out from one.
-/

namespace SolidExport

-- Powers are those of the core library, also next to the algebra of monoids.
attribute [local instance (high)] instPowNat

/-- The number `coefficient · 10 ^ exponent`.  It has no sign, and other pairs may name the same
number. -/
structure Decimal where
  coefficient : Nat
  exponent : Int
deriving DecidableEq, Repr

namespace Decimal

/-- `digitsOf n` — the decimal digits of the natural number `n`, most significant first. -/
def digitsOf (n : Nat) : List Char := Nat.toDigits 10 n

/-- `digitCount n` — how many decimal digits the natural number `n` has; zero has one. -/
def digitCount (n : Nat) : Nat := (digitsOf n).length

/-! ## Rounding -/

/-- `d.roundTo digits` — the decimal `d` rounded to at most `digits` significant digits; a half goes
away from zero. -/
def roundTo (digits : Nat) (d : Decimal) : Decimal :=
  let count := digitCount d.coefficient
  if count ≤ digits then d
  else
    let unit := 10 ^ (count - digits)
    let whole := d.coefficient / unit
    let rest := d.coefficient % unit
    ⟨if unit ≤ 2 * rest then whole + 1 else whole, d.exponent + (count - digits : Nat)⟩

/-! ## The nearest double -/

/-- The double nearest to a decimal, even on a tie.

A power of ten above 400 is past every finite double, and a value below `10 ^ -400` is nearer to
zero than to the least positive double, so the exact division is only done in between. -/
def toFloat (d : Decimal) : Float :=
  if d.coefficient = 0 then 0.0
  else if 400 < d.exponent then 1.0 / 0.0
  else if d.exponent + (d.coefficient.log2 + 1 : Nat) < -400 then 0.0
  else match d.exponent with
    | .ofNat e => Float.ofScientific d.coefficient false e
    | .negSucc e => Float.ofScientific d.coefficient true (e + 1)

example : roundTo 2 ⟨1250, 0⟩ = ⟨13, 2⟩ := by decide
example : roundTo 3 ⟨9996, -1⟩ = ⟨1000, 0⟩ := by decide
example : roundTo 5 ⟨125, -2⟩ = ⟨125, -2⟩ := by decide

end Decimal

end SolidExport
