/-
  Reading the parameters of a shape.

  A fault names the node it was found in, unless it comes from the literal itself.
-/
import SolidExport.Node.Basic

namespace SolidExport.Node

/-- `n.require name` — the parameter `name` of the node `n`, which has to be there. -/
def require (n : Node) (name : String) : Except Fault Literal :=
  match n.param? name with
  | some v => .ok v
  | none => .error (n.fault (.missingParameter name n.tag))

/-- `n.finite name v` — the literal `v`, of the parameter `name`, as a finite number.  A numeral may
be too large for a double, so a number need not be finite by itself. -/
def finite (n : Node) (name : String) (v : Literal) : Except Fault Float :=
  if v.isVector then .error (n.fault (.numberParameter name v.text))
  else do
    let x ← v.toNumber
    if x.isFinite then return x
    else throw (n.fault (.notFinite name v.text))

/-- `n.number name` — the finite number `name`, which has to be there. -/
def number (n : Node) (name : String) : Except Fault Float := do
  n.finite name (← n.require name)

/-- `n.number? name` — the finite number `name`, which may be missing. -/
def number? (n : Node) (name : String) : Except Fault (Option Float) :=
  match n.param? name with
  | some v => some <$> n.finite name v
  | none => .ok none

/-- `n.flag name` — the truth value `name`, false if it is missing. -/
def flag (n : Node) (name : String) : Except Fault Bool :=
  match n.param? name with
  | none => .ok false
  | some v => if v.isVector then .error (n.fault (.booleanParameter name v.text)) else v.toBoolean

/-- `n.positive name x` — refuses a value `x` of `name` that is not positive. -/
def positive (n : Node) (name : String) (x : Float) : Except Fault Float :=
  if 0.0 < x then .ok x else .error (n.fault (.notPositive name x))

/-- `n.nonNegative name x` — refuses a value `x` of `name` that is negative. -/
def nonNegative (n : Node) (name : String) (x : Float) : Except Fault Float :=
  if 0.0 ≤ x then .ok x else .error (n.fault (.negative name x))

/-- `n.radius? radius diameter` — a radius, under its own name or as half of a diameter.  Where both
are given the radius counts, and the diameter is not read. -/
def radius? (n : Node) (radius diameter : String) : Except Fault (Option Float) := do
  match ← n.number? radius with
  | some r => return some r
  | none => return (← n.number? diameter).map (· / 2.0)

/-- `n.radius radius diameter` — a positive radius, which has to be there.  Faults name the radius,
even where a diameter was given. -/
def radius (n : Node) (radius diameter : String) : Except Fault Float := do
  match ← n.radius? radius diameter with
  | some r => n.positive radius r
  | none => throw (n.fault (.missingParameter radius n.tag))

/-- `n.extents name axes` — one extent for each of `axes` axes: a scalar or a vector of one holds
for all of them, and what a vector has beyond them is not read. -/
def extents (n : Node) (name : String) (axes : Nat) : Except Fault (List Float) := do
  let v ← n.require name
  match v with
  | .vector _ [item] => return List.replicate axes (← n.finite name item)
  | .vector _ items =>
    if items.length < axes then throw (n.fault (.tooFewExtents name axes items.length))
    else (items.take axes).mapM (n.finite name)
  | scalar => return List.replicate axes (← n.finite name scalar)

end SolidExport.Node
