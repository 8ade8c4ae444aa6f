/-
  The path of a twisted extrusion.

  A sweep climbs evenly along the third axis.  Its control points carry a tangent that starts along
  the second axis, turns with the twist and grows towards the scale at the top.  The number of
  segments is thirty-six for a full turn of twist, or the number of slices if that is larger.

  The path is walked with a counter that is a double, one segment at a time.  Up to `2 ^ 53` such a
  counter is exact; there adding one changes nothing, and it never passes a count that large.
-/
import SolidExport.Angle
import SolidExport.Fault

namespace SolidExport

-- Powers are those of the core library, also next to the algebra of monoids.
attribute [local instance (high)] instPowNat

/-- What a sweep is given: the parameters of an extrusion that is twisted or scaled. -/
structure Sweep where
  height : Float
  /-- The twist in degrees. -/
  twist : Float
  slices : Option Float
  /-- The scale at the top along the first and the second axis. -/
  scale : Float × Float
  center : Bool

/-- A point in space, or a direction. -/
structure Vec3 where
  x : Float
  y : Float
  z : Float

/-- A point of the path, with the direction of the curve there. -/
structure ControlPoint where
  position : Vec3
  tangent : Vec3

namespace Sweep

/-- How many segments a full turn of twist is cut into, ten degrees each. -/
def segmentsPerTurn : Float := 36.0

/-- `segmentCount twist slices` — the number of segments for a twist in degrees and, perhaps, a
number of slices.  The larger of the two counts; it is a double, and may be infinite. -/
def segmentCount (twist : Float) (slices : Option Float) : Except RangeFault Float :=
  if twist.isFinite && slices.all Float.isFinite then
    let turned := if twist == 0.0 then 1.0 else Double.ceil (segmentsPerTurn * twist.abs / 360.0)
    .ok <| match slices with
      | some n => if turned < n then Double.trunc n else turned
      | none => turned
  else .error (.sweepBounds twist slices)

/-- `s.baseHeight` — where the path begins on the third axis: half the height below it, if
centered. -/
def baseHeight (s : Sweep) : Float := if s.center then -s.height * 0.5 else 0.0

/-- `s.basePoint` — the first control point, with a tangent along the second axis. -/
def basePoint (s : Sweep) : ControlPoint := ⟨⟨0.0, 0.0, s.baseHeight⟩, ⟨0.0, 1.0, 0.0⟩⟩

/-- `pointAt s segments i` — the control point at the end of segment `i` of `segments`: the part
`i / segments` of the height, of the twist and of the way from one to the scale. -/
def pointAt [Trig] (s : Sweep) (segments i : Float) : ControlPoint :=
  let base := s.basePoint.tangent
  let t := i / segments
  let angle := -s.twist * Angle.pi / 180.0 * t
  let sx := 1.0 + (s.scale.1 - 1.0) * t
  let sy := 1.0 + (s.scale.2 - 1.0) * t
  let sa := Trig.sin angle
  let ca := Trig.cos angle
  ⟨⟨0.0, 0.0, s.baseHeight + s.height / segments * i⟩,
    ⟨(ca * base.x - sa * base.y) * sx, (sa * base.x + ca * base.y) * sy, base.z⟩⟩

/-- `stepsPast segments` — how many steps of one a counter that starts at one takes until it is
past `segments`: as many as that number, unless the counter stays where it is before. -/
def stepsPast (segments : Float) : Except RangeFault Nat :=
  match Double.toNat? segments with
  | some count => if count < 2 ^ (53 : Nat) then .ok count else .error (.endless segments)
  | none => .error (.endless segments)

/-- `controlPoints s` — the control points of a path, one more than it has segments.  A path whose
segments are not walked to their end has no list of points. -/
def controlPoints [Trig] (s : Sweep) : Except RangeFault (List ControlPoint) := do
  let segments ← segmentCount s.twist s.slices
  let count ← stepsPast segments
  return s.basePoint :: (List.range count).map fun i => s.pointAt segments (Float.ofNat (i + 1))

end Sweep

end SolidExport
