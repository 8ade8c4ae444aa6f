/-
  Encoding extrusions.
-/
import SolidExport.Draft
import SolidExport.Shape.Reading
import SolidExport.Sweep

namespace SolidExport.Shape

open Draft (read)

/-- `linearExtrude n` — a straight extrusion, which cannot twist.  It is only written where a tag
map asks for it; the standard one writes sweeps. -/
def linearExtrude (n : Node) : Draft Unit := do
  let twist := (← read (n.number? "twist")).getD 0.0
  if twist != 0.0 then throw (.fault (n.fault (.twistedExtrusion twist)))
  let height ← read (n.number "height")
  Draft.number "dz" (← read (n.positive "height" height))
  Draft.boolean "center" (← read (n.flag "center"))

/-! ## Sweeps -/

/-- `scaleFactor n v` — one factor `v` of the scale at the top, which may be zero. -/
def scaleFactor (n : Node) (v : Literal) : Except Fault Float := do
  n.nonNegative "scale" (← n.finite "scale" v)

/-- `topScale n` — the scale at the top of the extrusion `n`: one factor for both axes, or one for
each. -/
def topScale (n : Node) : Except Fault (Float × Float) :=
  match n.param? "scale" with
  | none => .ok (1.0, 1.0)
  | some (.vector _ (x :: y :: _)) => do
    let sx ← scaleFactor n x
    return (sx, ← scaleFactor n y)
  | some v => do
    let s ← scaleFactor n (← if v.isVector then v.get 0.0 else pure v)
    return (s, s)

/-- `sweepOf n` — the sweep that the node `n` describes.  Slices that are not positive are as good
as none. -/
def sweepOf (n : Node) : Except Fault Sweep := do
  let height ← n.number "height"
  let height ← n.positive "height" height
  let slices ← n.number? "slices"
  let twist := (← n.number? "twist").getD 0.0
  let scale ← topScale n
  let center ← n.flag "center"
  return ⟨height, twist, (slices.filter (0.0 < ·)).map Double.trunc, scale, center⟩

/-- `controlPoint p` — writes the control point `p`, its place before its tangent. -/
def controlPoint (p : ControlPoint) : Draft Unit :=
  Draft.child "cpoint" do
    Draft.number "x" p.position.x
    Draft.number "y" p.position.y
    Draft.number "z" p.position.z
    Draft.number "vx" p.tangent.x
    Draft.number "vy" p.tangent.y
    Draft.number "vz" p.tangent.z

/-- `sweep n` — a twisted or scaled extrusion.  The path is begun once all its points are known. -/
def sweep [Trig] (n : Node) : Draft Unit := do
  let s ← read (sweepOf n)
  let points ← Draft.inRange s.controlPoints
  Draft.child "spline_path" (points.forM controlPoint)

/-! ## Revolutions -/

/-- `rotateExtrude n` — a revolution, by a full turn if no angle is given.  The angle is written in
radians. -/
def rotateExtrude (n : Node) : Draft Unit := do
  let degrees := (← read (n.number? "angle")).getD 360.0
  Draft.number "angle" (Angle.ofDegrees degrees)

/-- What turns the profile of a revolution from the plane where the source has it into the plane
where the output has it. -/
def revolutionCorrection [Trig] : Matrix := .rotationX (-90.0)

end SolidExport.Shape
