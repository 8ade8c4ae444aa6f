/-
  Sine and cosine of doubles.

  Both are computed in fixed point with exact naturals and rounded once at the end, so the result
  is the double nearest to the true value.

  An argument `m · 2 ^ q` is first reduced by the multiples of a quarter turn.  A double may be as
  large as `2 ^ 1024`, so the quarter turn `halfPi` is held to `1280` bits behind the point: even
  after `2 ^ 1024` subtractions the remainder is right to more than `200` bits, while no double is
  closer than `2 ^ -64` (relative to its size) to a multiple of a quarter turn.  The remainder is
  then put into the power series.

  Below `2 ^ -27` the nearest double to the sine is the argument itself, and to the cosine one.

  Not every machine rounds so well, and the last digits are left to it.  So whatever is computed from
  a sine or a cosine takes them from a `Trig`, which has the two functions and the only facts about
  them that matter; `sin` and `cos` are the ones to run with.
-/
import SolidExport.Decimal.Binary

namespace SolidExport.Angle

-- Powers are those of the core library, also next to the algebra of monoids.
attribute [local instance (high)] instPowNat

/-! ## The quarter turn -/

/-- Bits behind the point while an argument is reduced. -/
def reductionBits : Nat := 1280

/-- `arctanTail n terms k power` — the next `terms` terms `power/(2k+1) - power/(n²(2k+3)) + …` of
the arctangent series of `1/n`, from term `k` on. -/
def arctanTail (n : Nat) : Nat → Nat → Nat → Int
  | 0, _, _ => 0
  | terms + 1, k, power => (power / (2 * k + 1) : Nat) - arctanTail n terms (k + 1) (power / (n * n))

/-- `arctanInverse bits n` — the arctangent of `1/n` with `bits` bits behind the point.  The terms
are enough for `n = 5` and all the bits that are asked for. -/
def arctanInverse (bits n : Nat) : Int := arctanTail n 320 0 (2 ^ bits / n)

/-- A quarter turn: `π/2 = 8·arctan(1/5) - 2·arctan(1/239)`. -/
def halfPi : Nat :=
  let guard := 32
  ((8 * arctanInverse (reductionBits + guard) 5 - 2 * arctanInverse (reductionBits + guard) 239)
    / 2 ^ guard).toNat

/-! ## The power series -/

/-- Bits behind the point in the power series. -/
def seriesBits : Nat := 192

/-- `series square terms k term` — the next `terms` terms `term - term·r²/((k+1)(k+2)) + …` of a
power series in `r`, where `square` is `r²` and `k` the power in `term`. -/
def series (square : Nat) : Nat → Nat → Nat → Int
  | 0, _, _ => 0
  | terms + 1, k, term =>
    (term : Int) - series square terms (k + 2) (term * square / 2 ^ seriesBits / ((k + 1) * (k + 2)))

/-- `sineCosine r` — the sine and the cosine of a remainder `r` in the first quadrant. -/
def sineCosine (r : Nat) : Int × Int :=
  let square := r * r / 2 ^ seriesBits
  (series square 32 1 r, series square 32 0 (2 ^ seriesBits))

/-- `ofFixed n` — the double nearest to the fixed-point number `n`.  It is rounded as a decimal
would be: `n / 2 ^ p` is `n · 5 ^ p / 10 ^ p`. -/
def ofFixed (n : Int) : Float :=
  let magnitude := Float.ofScientific (n.natAbs * 5 ^ seriesBits) true seriesBits
  if n < 0 then -magnitude else magnitude

/-! ## Reduction -/

/-- `reduce b` — how many quarter turns fit into the magnitude of `b`, and the remainder. -/
def reduce (b : Binary) : Nat × Nat :=
  let scaled := match b.exponent + reductionBits with
    | .ofNat e => b.significand * 2 ^ e
    | .negSucc e => b.significand / 2 ^ (e + 1)
  (scaled / halfPi, scaled % halfPi / 2 ^ (reductionBits - seriesBits))

/-- Arguments below this, which is `2 ^ -27`, are their own sine, and have the cosine one. -/
def tiny : Float := 7.450580596923828e-9

/-- `sin x` — the sine of the angle `x` in radians; NaN when it is not finite. -/
def sin (x : Float) : Float :=
  match Binary.ofFloat? x with
  | none => 0.0 / 0.0
  | some b =>
    if x.abs < tiny then x
    else
      let (turns, r) := reduce b
      let (s, c) := sineCosine r
      let value := match turns % 4 with
        | 0 => s
        | 1 => c
        | 2 => -s
        | _ => -c
      ofFixed (if b.negative then -value else value)

/-- `cos x` — the cosine of the angle `x` in radians; NaN when it is not finite. -/
def cos (x : Float) : Float :=
  match Binary.ofFloat? x with
  | none => 0.0 / 0.0
  | some b =>
    if x.abs < tiny then 1.0
    else
      let (turns, r) := reduce b
      let (s, c) := sineCosine r
      ofFixed <| match turns % 4 with
        | 0 => c
        | 1 => -s
        | 2 => -c
        | _ => s

/-! ## Degrees -/

/-- The double nearest to half a turn. -/
def pi : Float := 3.141592653589793

/-- `ofDegrees degrees` — an angle in degrees as radians.  The product comes first, so an angle that
is finite in degrees need not be so in radians. -/
def ofDegrees (degrees : Float) : Float := degrees * pi / 180.0

/-- `snap value` — a sine or cosine that is off an integer by less than `1e-15` is taken to be that
integer: multiples of a right angle are not doubles in radians. -/
def snap (value : Float) : Float :=
  let rounded := Double.round value
  if (value - rounded).abs < 1e-15 then rounded else value

end SolidExport.Angle

namespace SolidExport

open Angle (ofDegrees snap)

/-- The sine and the cosine of a machine, of angles in radians.  Their last digits are its own affair.
But a quarter turn back has to come out near enough to `-1` and `0` for `snap`: the matrix of every
revolution is made of the two, and has to move rows without changing their numbers. -/
class Trig where
  sin : Float → Float
  cos : Float → Float
  snap_sin_quarter : snap (sin (ofDegrees (-90.0))) = -1.0
  snap_cos_quarter : (snap (cos (ofDegrees (-90.0))) == 0.0) = true

/-- The sine and the cosine that are right to the last digit.  This is no instance, so that nothing
is said of these two only by oversight. -/
@[reducible] def Trig.rounded : Trig where
  sin := Angle.sin
  cos := Angle.cos
  snap_sin_quarter := by decide +kernel
  snap_cos_quarter := by decide +kernel

end SolidExport
