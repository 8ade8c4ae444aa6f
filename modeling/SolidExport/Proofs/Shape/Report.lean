/-
  What an encoder may fail with.

  An encoder is made of readings and writings, and only its readings fail: so it reports as they do.
  Only a difference, an intersection or a sum counts its operands too, and may find too few
  (`reports_encoder`).  The one step of an encoder that is neither asks for a range: it is that of a
  sweep, for the number of its segments.  The twist and the slices are finite by then
  (`isFinite_of_sweepOf`), so there is a number, and all that can be wrong with it is that no counter
  passes it (`NeverEnds`).
-/
import SolidExport.Proofs.Node.Report
import SolidExport.Proofs.Shape.Encoder
import SolidExport.Proofs.Shape.Reading
import SolidExport.Proofs.Sweep

namespace SolidExport.Shape

open Draft (FailsWith)

variable {trig : Trig} (n : Node)

theorem reports_ball : FailsWith n.Reports (ball n) :=
  .read_bind (Node.reports_radius (by decide) (by decide)) fun _ _ => .number _ _

theorem reports_coneRadius {both : Option Float} {radius diameter : String}
    (hradius : OpensPlainly radius) (hdiameter : OpensPlainly diameter) :
    Outcome.FailsWith n.Reports (coneRadius n both radius diameter) := by
  refine .bind (Node.reports_radius? hradius hdiameter) fun own _ => ?_
  split
  · exact Node.reports_nonNegative hradius
  · exact .error (n.reports_fault rfl nofun)

theorem reports_cone : FailsWith n.Reports (cone n) := by
  refine .read_bind (Node.reports_number (by decide)) fun _ _ => ?_
  refine .read_bind (Node.reports_positive (by decide)) fun _ _ => ?_
  refine .read_bind (Node.reports_radius? (by decide) (by decide)) fun both _ => ?_
  refine .read_bind (reports_coneRadius n (by decide) (by decide)) fun r1 _ => ?_
  refine .read_bind (reports_coneRadius n (by decide) (by decide)) fun r2 _ => ?_
  split
  · refine .bind (.number _ _) fun _ => .bind (.number _ _) fun _ => .bind (.number _ _) fun _ => ?_
    exact .read_bind Node.reports_flag fun _ _ => .boolean _ _
  · exact .fault (n.reports_fault rfl nofun)

theorem reports_box {axes : List String} (haxes : ∀ axis ∈ axes, OpensPlainly axis) :
    FailsWith n.Reports (box axes n) := by
  refine .read_bind (Node.reports_extents (by decide)) fun extents _ => ?_
  refine .bind (.forM fun item hitem => ?_) fun _ => ?_
  · have haxis : OpensPlainly item.1 := haxes item.1 (List.of_mem_zip hitem).1
    exact .read_bind (Node.reports_positive haxis) fun _ _ => .number _ _
  · exact .read_bind Node.reports_flag fun _ _ => .boolean _ _

theorem reports_polygonOrder (count : Nat) :
    Outcome.FailsWith n.Reports (polygonOrder n count) := by
  unfold polygonOrder
  dsimp only
  split
  · exact .ok _
  · exact .mapM fun v _ => n.reports_toInteger v
  · exact .error (n.reports_fault rfl nofun)
  · exact .ok _

theorem reports_polygonVertex (points : Literal) (count : Nat) (index : Float) :
    FailsWith n.Reports (polygonVertex n points count index) := by
  refine .guard (fun _ => n.reports_fault rfl nofun) fun _ => ?_
  refine .read_bind (n.reports_get points index) fun point _ => ?_
  split
  · refine .child (.read_bind (Node.reports_finite (by decide)) fun _ _ => ?_)
    refine .bind (.number _ _) fun _ => ?_
    exact .read_bind (Node.reports_finite (by decide)) fun _ _ => .number _ _
  · exact .fault (n.reports_fault rfl nofun)

theorem reports_polygon : FailsWith n.Reports (polygon n) := by
  refine .read_bind Node.reports_require fun points _ => ?_
  refine .read_bind (reports_polygonOrder n _) fun order _ => ?_
  refine .guard (fun _ => n.reports_fault rfl nofun) fun _ => ?_
  exact .child (.forM fun index _ => reports_polygonVertex n points _ index)

theorem reports_polyhedronVertex (index : Nat) (point : Literal) :
    FailsWith n.Reports (polyhedronVertex n index point) := by
  unfold polyhedronVertex
  split
  · refine .child (.read_bind (Node.reports_finite (by decide)) fun _ _ => ?_)
    refine .bind (.number _ _) fun _ => ?_
    refine .read_bind (Node.reports_finite (by decide)) fun _ _ => .bind (.number _ _) fun _ => ?_
    exact .read_bind (Node.reports_finite (by decide)) fun _ _ => .number _ _
  · exact .fault (n.reports_fault rfl nofun)

theorem reports_face (count index : Nat) (corners : Literal) :
    FailsWith n.Reports (face n count index corners) := by
  refine .guard (fun _ => n.reports_fault rfl nofun) fun _ => .child (.forM fun corner _ => ?_)
  refine .read_bind (n.reports_toInteger corner) fun _ _ => ?_
  exact .guard (fun _ => n.reports_fault rfl nofun) fun _ => .child (.number _ _)

theorem reports_faceList : Outcome.FailsWith n.Reports (faceList n) := by
  unfold faceList
  split
  · exact .ok _
  · exact .ok _
  · exact Node.reports_require

theorem reports_polyhedron : FailsWith n.Reports (polyhedron n) := by
  refine .read_bind Node.reports_require fun points _ => ?_
  refine .guard (fun _ => n.reports_fault rfl nofun) fun _ => ?_
  refine .bind (.child (.forM fun _ _ => reports_polyhedronVertex n _ _)) fun _ => ?_
  exact .read_bind (reports_faceList n) fun _ _ => .child (.forM fun _ _ => reports_face n _ _ _)

theorem reports_offset : FailsWith n.Reports (offset n) := by
  have hrest : ∀ (delta : Float) (r : Option Float), FailsWith n.Reports (do
      Draft.number "delta" delta
      Draft.boolean "round" r.isSome
      Draft.boolean "chamfer" (← Draft.read (n.flag "chamfer"))) := by
    intro delta r
    refine .bind (.number _ _) fun _ => .bind (.boolean _ _) fun _ => ?_
    exact .read_bind Node.reports_flag fun _ _ => .boolean _ _
  refine .read_bind (Node.reports_number? (by decide)) fun r _ => ?_
  cases r with
  | some r => exact .bind (.pure r) fun delta => hrest delta _
  | none => exact .read_bind (Node.reports_number (by decide)) fun delta _ => hrest delta _

theorem reports_linearExtrude : FailsWith n.Reports (linearExtrude n) := by
  refine .read_bind (Node.reports_number? (by decide)) fun _ _ => ?_
  refine .guard (fun _ => n.reports_fault rfl nofun) fun _ => ?_
  refine .read_bind (Node.reports_number (by decide)) fun _ _ => ?_
  refine .read_bind (Node.reports_positive (by decide)) fun _ _ => .bind (.number _ _) fun _ => ?_
  exact .read_bind Node.reports_flag fun _ _ => .boolean _ _

theorem reports_rotateExtrude : FailsWith n.Reports (rotateExtrude n) :=
  .read_bind (Node.reports_number? (by decide)) fun _ _ => .number _ _

theorem reports_union (target : String) : Outcome.FailsWith n.Reports (checkUniform n target) :=
  (n.finds_checkUniform target).mono fun _ => Or.inl

/-- `MissesOperand n target f` — the fault `f` says that an operand of the node `n` is missing: its
    target needs two. -/
structure MissesOperand (target : String) (f : Fault) : Prop where
  target_mem : target ∈ binaryTags
  count_lt : n.countChildren < 2
  fault_eq : f = n.fault (.tooFewOperands n.tag target n.countChildren)

theorem reports_binary {target : String} (htarget : target ∈ binaryTags) :
    FailsWith (fun f => n.Reports f ∨ MissesOperand n target f) (binary target n) := by
  refine .guard (fun hcount => .inr ⟨htarget, hcount, rfl⟩) fun _ => ?_
  exact .read ((reports_union n target).mono fun _ => Or.inl)

/-! ## Sweeps -/

theorem reports_scaleFactor (v : Literal) : Outcome.FailsWith n.Reports (scaleFactor n v) :=
  .bind (Node.reports_finite (by decide)) fun _ _ => Node.reports_nonNegative (by decide)

theorem reports_topScale : Outcome.FailsWith n.Reports (topScale n) := by
  unfold topScale
  split
  · exact .ok _
  · exact .bind (reports_scaleFactor n _) fun _ _ => .bind (reports_scaleFactor n _) fun _ _ => .ok _
  · dsimp only
    split
    · exact .bind (n.reports_get _ _) fun _ _ => .bind (reports_scaleFactor n _) fun _ _ => .ok _
    · exact .bind (.ok _) fun _ _ => .bind (reports_scaleFactor n _) fun _ _ => .ok _

theorem reports_sweepOf : Outcome.FailsWith n.Reports (sweepOf n) := by
  refine .bind (Node.reports_number (by decide)) fun _ _ => ?_
  refine .bind (Node.reports_positive (by decide)) fun _ _ => ?_
  refine .bind (Node.reports_number? (by decide)) fun _ _ => ?_
  refine .bind (Node.reports_number? (by decide)) fun _ _ => ?_
  exact .bind (reports_topScale n) fun _ _ => .bind Node.reports_flag fun _ _ => .ok _

variable {n}

/-- `NeverEnds n count` — the path that the node `n` asks for has `count` segments, and a counter that
    goes up by one never passes them.  This is the one thing that keeps an encoder from a result
    without being a fault of its node. -/
def NeverEnds (n : Node) (count : Float) : Prop :=
  ∃ s, sweepOf n = .ok s ∧ Sweep.segmentCount s.twist s.slices = .ok count ∧
    ¬ ∃ i, count < Sweep.counter i

/-- The twist and the slices of a sweep have been checked: they are finite, so its segments can be
    asked for. -/
theorem isFinite_of_sweepOf {s : Sweep} (h : sweepOf n = .ok s) :
    s.twist.isFinite = true ∧ ∀ k ∈ s.slices, k.isFinite = true := by
  obtain ⟨_, -, h1⟩ := Outcome.bind_ok.mp h
  obtain ⟨_, -, h2⟩ := Outcome.bind_ok.mp h1
  obtain ⟨slices, hslices, h3⟩ := Outcome.bind_ok.mp h2
  obtain ⟨twist, htwist, h4⟩ := Outcome.bind_ok.mp h3
  obtain ⟨scale, -, h5⟩ := Outcome.bind_ok.mp h4
  obtain ⟨center, -, h6⟩ := Outcome.bind_ok.mp h5
  injection h6 with h6
  subst h6
  have htwistFinite : (twist.getD 0.0).isFinite = true := by
    cases twist with
    | none => rfl
    | some x => exact Node.number?_ok htwist
  refine ⟨htwistFinite, fun y hy => ?_⟩
  obtain ⟨x, hx, rfl⟩ := Option.map_eq_some_iff.mp hy
  obtain ⟨rfl, -⟩ := Option.filter_eq_some_iff.mp hx
  exact (Double.trunc_whole (Node.number?_ok hslices)).1

variable (n)

/-- **A sweep whose path has an end fails with reports only**, since its bounds are finite. -/
theorem reports_sweep (hends : ¬ ∃ count, NeverEnds n count) : FailsWith n.Reports (sweep n) := by
  refine .read_bind (reports_sweepOf n) fun s hs => ?_
  obtain ⟨htwist, hslices⟩ := isFinite_of_sweepOf hs
  obtain ⟨points, hpoints⟩ | ⟨count, hcount, -, hpasses⟩ :=
    @Sweep.controlPoints_cases trig s htwist hslices
  · rw [hpoints]
    refine .child (.forM fun p _ => .child ?_)
    refine .bind (.number _ _) fun _ => .bind (.number _ _) fun _ => .bind (.number _ _) fun _ => ?_
    exact .bind (.number _ _) fun _ => .bind (.number _ _) fun _ => .number _ _
  · exact absurd ⟨count, s, hs, hcount, hpasses⟩ hends

/-- **A sweep whose path has no end does not come back from it**, and has written nothing. -/
theorem sweep_of_neverEnds {count : Float} (h : NeverEnds n count) (e : Element) :
    sweep n e = .error (.range (.endless count)) e := by
  obtain ⟨s, hs, hcount, hpasses⟩ := h
  have hendless : s.controlPoints = .error (.endless count) :=
    (Sweep.controlPoints_endless_iff hcount).mpr hpasses
  unfold sweep
  rw [hs]
  show (Draft.inRange s.controlPoints >>= _) e = _
  rw [hendless]
  rfl

/-! ## The table -/

theorem failsWith_plain {P : Fault → Prop} {body : Node → Draft Unit} (h : FailsWith P (body n)) :
    FailsWith P (plain body n) :=
  .bind h fun _ => .pure _

/-- **Every encoder fails with reports only**, or for an operand that is missing, unless it walks a
    path without end. -/
theorem reports_encoder {target : String} {encoder : Node → Draft Encoding}
    (h : Encodes target encoder) (hends : target = "sweep" → ¬ ∃ count, NeverEnds n count) :
    FailsWith (fun f => n.Reports f ∨ MissesOperand n target f) (encoder n) := by
  have hplain : ∀ {body : Node → Draft Unit}, FailsWith n.Reports (body n) →
      FailsWith (fun f => n.Reports f ∨ MissesOperand n target f) (plain body n) :=
    fun hbody => (failsWith_plain n hbody).mono fun _ => Or.inl
  cases h with
  | circle => exact hplain (reports_ball n)
  | sphere => exact hplain (reports_ball n)
  | rectangle => exact hplain (reports_box n (by decide))
  | polygon => exact hplain (reports_polygon n)
  | offset => exact hplain (reports_offset n)
  | projection =>
    exact (FailsWith.read_bind Node.reports_flag fun _ _ => .pure _).mono fun _ => Or.inl
  | cuboid => exact hplain (reports_box n (by decide))
  | cone => exact hplain (reports_cone n)
  | polyhedron => exact hplain (reports_polyhedron n)
  | linearExtrude => exact hplain (reports_linearExtrude n)
  | sweep => exact hplain (reports_sweep n (hends rfl))
  | revolution =>
    exact (FailsWith.bind (reports_rotateExtrude n) fun _ => .pure _).mono fun _ => Or.inl
  | union _ => exact hplain (.read (reports_union n _))
  | binary htarget => exact failsWith_plain n (reports_binary n htarget)

/-- An encoder of sweeps does not come back from a path without end, and has written nothing by
    then. -/
theorem encoder_of_neverEnds {target : String} {encoder : Node → Draft Encoding}
    (h : Encodes target encoder) (htarget : target = "sweep") {count : Float}
    (hends : NeverEnds n count) (e : Element) :
    encoder n e = .error (.range (.endless count)) e := by
  have hplain : encoder = plain sweep := by
    cases h with
    | sweep => rfl
    | union htag =>
      rw [htarget] at htag
      exact absurd htag (by decide)
    | binary htag =>
      rw [htarget] at htag
      exact absurd htag (by decide)
    | _ => exact absurd htarget (by decide)
  rw [hplain]
  show EStateM.bind (sweep n) _ e = _
  unfold EStateM.bind
  rw [sweep_of_neverEnds n hends e]

end SolidExport.Shape
