/-
  The fewest decimal digits that name a double.

  A positive double `x = m · 2 ^ q` is named by every real closer to it than to its neighbours.
  Those reals form an interval around `x` whose upper end lies half a unit `2 ^ q` above and whose
  lower end half a unit below, or a quarter when `m` is the least significand of its binade.  The
  ends belong to it exactly when `m` is even.

  `shortest` tries the decimal grids from coarse to fine: one significant digit, two, up to
  seventeen.  On each grid only the two points around `x` matter, since a grid point inside the
  interval has one of them between it and `x`.  The first grid with a hit wins; of two hits the
  nearer, of two equally near the even one.  Seventeen digits always hit.

  All of it is exact: `x` and the interval are written over one power of ten.
-/
import SolidExport.Decimal.Binary

namespace SolidExport

-- Powers are those of the core library, also next to the algebra of monoids.
attribute [local instance (high)] instPowNat

namespace Decimal

/-- `stripZeros fuel d` — the same number with the trailing zeros of the coefficient moved to the
exponent.  `fuel` bounds their number. -/
def stripZeros : Nat → Decimal → Decimal
  | 0, d => d
  | fuel + 1, d =>
    if d.coefficient ≠ 0 ∧ d.coefficient % 10 = 0 then
      stripZeros fuel ⟨d.coefficient / 10, d.exponent + 1⟩
    else d

/-- `d.normalize` — the same number with a coefficient that does not end in zero. -/
def normalize (d : Decimal) : Decimal := stripZeros (digitCount d.coefficient) d

end Decimal

namespace Binary

/-- The reals that round to a double, times four and over the power of ten of its exact decimal:
`center` is the double, `low` and `high` are the ends, `closed` tells whether they belong. -/
structure Interval where
  center : Nat
  low : Nat
  high : Nat
  closed : Bool

/-- `b.interval` — the reals that round to the magnitude of `b`. -/
def interval (b : Binary) : Interval :=
  let unit := match b.exponent with
    | .ofNat e => 2 ^ e
    | .negSucc e => 5 ^ (e + 1)
  let center := 4 * (b.significand * unit)
  let below := if b.significand = 2 ^ (52 : Nat) ∧ b.exponent ≠ -1074 then unit else 2 * unit
  ⟨center, center - below, center + 2 * unit, b.significand % 2 == 0⟩

namespace Interval

/-- `i.holds n` — whether four times `n` lies in the interval `i`. -/
def holds (i : Interval) (n : Nat) : Bool :=
  if i.closed then i.low ≤ 4 * n && 4 * n ≤ i.high else i.low < 4 * n && 4 * n < i.high

/-- `i.onGrid? unit` — the better of the grid points around the center, on the grid of the multiples
of `unit`; none if neither is in the interval. -/
def onGrid? (i : Interval) (unit : Nat) : Option Nat :=
  let lower := i.center / (4 * unit)
  let upper := lower + 1
  match i.holds (lower * unit), i.holds (upper * unit) with
  | false, false => none
  | true, false => some lower
  | false, true => some upper
  | true, true =>
    let down := i.center - 4 * (lower * unit)
    let up := 4 * (upper * unit) - i.center
    if down < up then some lower
    else if up < down then some upper
    else some (if lower % 2 = 0 then lower else upper)

/-- `i.coarsest? places` — the first hit on the grids of `10 ^ places`, `10 ^ (places - 1)`, …, `1`:
the coefficient and the number of places it leaves off. -/
def coarsest? (i : Interval) : Nat → Option (Nat × Nat)
  | 0 => (i.onGrid? 1).map (·, 0)
  | places + 1 =>
    match i.onGrid? (10 ^ (places + 1)) with
    | some n => some (n, places + 1)
    | none => i.coarsest? places

end Interval

/-- `b.shortest` — the decimal of fewest digits that rounds to the magnitude of `b`. -/
def shortest (b : Binary) : Decimal :=
  let exact := b.toDecimal
  match b.interval.coarsest? (Decimal.digitCount exact.coefficient - 1) with
  | some (n, places) => Decimal.normalize ⟨n, exact.exponent + places⟩
  | none => Decimal.normalize exact

end Binary

example : (Binary.ofFloat? 0.1).map Binary.shortest = some ⟨1, -1⟩ := by decide +kernel
example : (Binary.ofFloat? 5e-324).map Binary.shortest = some ⟨5, -324⟩ := by decide +kernel
example : (Binary.ofFloat? 1e23).map Binary.shortest = some ⟨1, 23⟩ := by decide +kernel
example : (Binary.ofFloat? (0.1 + 0.2)).map Binary.shortest = some ⟨30000000000000004, -17⟩ := by
  decide +kernel

end SolidExport
