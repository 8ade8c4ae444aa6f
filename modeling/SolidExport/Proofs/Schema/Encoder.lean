/-
  Every encoder begins its element as the schema asks.

  For each line of the table of encoders: if the encoder succeeds on an empty element, it has set the
  attributes of its tag, in their order and with values of their kind, and has added the blocks of its
  tag (`isBegun_of_ok`).  The encoders need not know which source tag they are used for.
-/
import SolidExport.Proofs.Node.NoNaN
import SolidExport.Proofs.Schema.Basic
import SolidExport.Proofs.Shape.Encoder
import SolidExport.Proofs.Shape.Reading

namespace SolidExport.Schema

open Draft (read_ok number_ok boolean_ok child_ok read_bind_ok number_bind_ok boolean_bind_ok
  child_bind_ok guard_ok pure_ok)
open Shape (Encodes)

/-- `IsBegun target e` — the element `e` is a shape of `target` as its encoder leaves it: with its
    attributes and blocks, before its matrix and its operands. -/
structure IsBegun (target : String) (e : Element) : Prop where
  tag_eq : e.tag = target
  attributes : Conforms (fields target) e.attributes
  radius : target = "cone" → HasRadius e.attributes
  blocks : HasBlocks target e.children

variable {trig : Trig}

section

variable {n : Node} {e e' : Element} {u : Unit} {target : String}

/-! ## Round shapes -/

theorem ball_ok (h : Shape.ball n e = .ok u e') :
    ∃ r, Field.positive.Admits (.number r) ∧ e' = e.set "r" (.number r) := by
  obtain ⟨r, hr, h⟩ := read_bind_ok.mp h
  exact ⟨r, Node.radius_ok hr, number_ok.mp h⟩

theorem coneRadius_ok {both : Option Float} {radius diameter : String} {r : Float}
    (hboth : ∀ b, both = some b → b.isFinite = true)
    (h : Shape.coneRadius n both radius diameter = .ok r) :
    Field.nonNegative.Admits (.number r) := by
  obtain ⟨own, hown, h⟩ := Outcome.bind_ok.mp h
  split at h
  · rename_i r' hr'
    obtain ⟨rfl, hnn⟩ := Node.nonNegative_ok h
    refine ⟨?_, hnn⟩
    cases own with
    | some r'' =>
      injection hr' with hr'
      subst hr'
      exact Node.radius?_ok hown
    | none => exact hboth _ hr'
  · exact nomatch h

theorem cone_ok (h : Shape.cone n e = .ok u e') :
    ∃ height r1 r2 center, Field.positive.Admits (.number height) ∧
      Field.nonNegative.Admits (.number r1) ∧ Field.nonNegative.Admits (.number r2) ∧
      0.0 < r1 + r2 ∧
      e' = (((e.set "h" (.number height)).set "r1" (.number r1)).set "r2" (.number r2)).set
        "center" (.boolean center) := by
  obtain ⟨height, hheight, hchecked⟩ := read_bind_ok.mp h
  obtain ⟨height', hpositive, hradii⟩ := read_bind_ok.mp hchecked
  obtain ⟨rfl, hpos⟩ := Node.positive_ok hpositive
  obtain ⟨both, hboth, hends⟩ := read_bind_ok.mp hradii
  obtain ⟨r1, hr1, htop⟩ := read_bind_ok.mp hends
  obtain ⟨r2, hr2, hwritten⟩ := read_bind_ok.mp htop
  have hfinite : ∀ b, both = some b → b.isFinite = true := by
    rintro b rfl
    exact Node.radius?_ok hboth
  split at hwritten
  · rename_i hsum
    obtain ⟨center, -, hcenter⟩ := read_bind_ok.mp hwritten
    exact ⟨height', r1, r2, center, ⟨Node.number_ok hheight, hpos⟩, coneRadius_ok hfinite hr1,
      coneRadius_ok hfinite hr2, hsum, boolean_ok.mp hcenter⟩
  · exact nomatch hwritten

/-! ## Boxes -/

/-- A box is written with a positive extent on each of its axes, in their order. -/
theorem extents_ok {axes : List String} {extents : List Float}
    (hlength : axes.length = extents.length) (hfinite : ∀ x ∈ extents, x.isFinite = true)
    (h : (axes.zip extents).forM (fun (axis, extent) => do
      Draft.number axis (← Draft.read (n.positive axis extent)) : String × Float → Draft Unit) e
        = .ok u e') :
    ∃ values : List (String × Attribute),
      Conforms (axes.map fun axis => (axis, Field.positive)) values ∧
      e' = values.foldl (fun e a => e.set a.1 a.2) e := by
  induction axes generalizing extents e with
  | nil =>
    obtain ⟨-, rfl⟩ := pure_ok.mp h
    exact ⟨[], List.Forall₂.nil, rfl⟩
  | cons axis axes ih =>
    cases extents with
    | nil => exact nomatch hlength
    | cons extent extents =>
      obtain ⟨v, m, hhead, htail⟩ := Draft.bind_ok.mp h
      obtain ⟨x, hx, hset⟩ := read_bind_ok.mp hhead
      obtain ⟨hsame, hpos⟩ := Node.positive_ok hx
      obtain ⟨values, hvalues, hrest⟩ := ih (Nat.succ.inj hlength)
        (fun y hy => hfinite y (List.mem_cons_of_mem _ hy)) htail
      refine ⟨(axis, .number extent) :: values,
        List.Forall₂.cons ⟨rfl, hfinite extent List.mem_cons_self, hpos⟩ hvalues, ?_⟩
      rw [hrest, number_ok.mp hset, hsame]
      rfl

theorem box_ok {axes : List String} (h : Shape.box axes n e = .ok u e') :
    ∃ (values : List (String × Attribute)) (center : Bool),
      Conforms (axes.map fun axis => (axis, Field.positive)) values ∧
      e' = (values.foldl (fun e a => e.set a.1 a.2) e).set "center" (.boolean center) := by
  obtain ⟨extents, hextents, h⟩ := read_bind_ok.mp h
  obtain ⟨hlength, hfinite⟩ := Node.extents_ok hextents
  obtain ⟨v, m, hloop, h⟩ := Draft.bind_ok.mp h
  obtain ⟨values, hvalues, rfl⟩ := extents_ok hlength.symm hfinite hloop
  obtain ⟨center, -, h⟩ := read_bind_ok.mp h
  exact ⟨values, center, hvalues, boolean_ok.mp h⟩

/-! ## Polygons -/

theorem polygonVertex_ok {points : Literal} {count : Nat} {index : Float}
    (h : Shape.polygonVertex n points count index e = .ok u e') :
    ∃ c, IsLeaf "vertex" [("x", .finite), ("y", .finite)] c ∧ e' = e.push c := by
  obtain ⟨-, hpoint⟩ := guard_ok.mp h
  obtain ⟨point, -, hmatch⟩ := read_bind_ok.mp hpoint
  split at hmatch
  · obtain ⟨c, hbody, rfl⟩ := child_ok.mp hmatch
    obtain ⟨x, hx, hrest⟩ := read_bind_ok.mp hbody
    obtain ⟨y, hy, hlast⟩ := read_bind_ok.mp (number_bind_ok.mp hrest)
    refine ⟨c, ?_, rfl⟩
    rw [number_ok.mp hlast]
    exact ⟨rfl, .cons ⟨rfl, (Node.finite_ok hx).2⟩ (.cons ⟨rfl, (Node.finite_ok hy).2⟩ .nil), rfl⟩
  · exact nomatch hmatch

theorem polygon_ok (h : Shape.polygon n e = .ok u e') :
    ∃ vertices, HasBlocks "polygon" [vertices] ∧ e' = e.push vertices := by
  obtain ⟨points, -, horder⟩ := read_bind_ok.mp h
  obtain ⟨order, -, hguard⟩ := read_bind_ok.mp horder
  obtain ⟨hthree, hlist⟩ := guard_ok.mp hguard
  obtain ⟨c, hbody, rfl⟩ := child_ok.mp hlist
  obtain ⟨vs, hlength, hvs, rfl⟩ := Draft.forM_all_ok (fun _ _ _ _ _ => polygonVertex_ok) hbody
  refine ⟨_, .polygon ⟨rfl, rfl, ?_, hvs⟩, rfl⟩
  show 3 ≤ vs.length
  omega

/-! ## Polyhedra -/

theorem polyhedronVertex_ok {index : Nat} {point : Literal}
    (h : Shape.polyhedronVertex n index point e = .ok u e') :
    ∃ c, IsLeaf "vertex" [("x", .finite), ("y", .finite), ("z", .finite)] c ∧ e' = e.push c := by
  unfold Shape.polyhedronVertex at h
  split at h
  · obtain ⟨c, hbody, rfl⟩ := child_ok.mp h
    obtain ⟨x, hx, hrest⟩ := read_bind_ok.mp hbody
    obtain ⟨y, hy, hrest'⟩ := read_bind_ok.mp (number_bind_ok.mp hrest)
    obtain ⟨z, hz, hlast⟩ := read_bind_ok.mp (number_bind_ok.mp hrest')
    refine ⟨c, ?_, rfl⟩
    rw [number_ok.mp hlast]
    exact ⟨rfl, .cons ⟨rfl, (Node.finite_ok hx).2⟩ (.cons ⟨rfl, (Node.finite_ok hy).2⟩
      (.cons ⟨rfl, (Node.finite_ok hz).2⟩ .nil)), rfl⟩
  · exact nomatch h

/-- A corner that is written is an index in range: a literal holds no NaN, so it was compared. -/
theorem faceCorner_ok {count face : Nat} {corner : Literal} (hcorner : corner.NoNaN)
    (h : Shape.faceCorner n count face corner e = .ok u e') :
    ∃ c, IsCorner count c ∧ e' = e.push c := by
  obtain ⟨index, hindex, hguard⟩ := read_bind_ok.mp h
  obtain ⟨x, hx, rfl⟩ := Outcome.map_ok.mp hindex
  obtain ⟨hrange, hchild⟩ := guard_ok.mp hguard
  obtain ⟨c, hbody, rfl⟩ := child_ok.mp hchild
  obtain ⟨hlo, hhi, hwhole⟩ :=
    Double.trunc_in_range (hcorner.toNumber hx) (Double.isNaN_ofNat count) hrange
  exact ⟨c, ⟨Double.trunc x, number_ok.mp hbody, hlo, hhi, hwhole⟩, rfl⟩

theorem face_ok {count index : Nat} {corners : Literal} (hcorners : corners.NoNaN)
    (h : Shape.face n count index corners e = .ok u e') :
    ∃ c, IsList "face" 3 (IsCorner count) c ∧ e' = e.push c := by
  obtain ⟨hthree, hlist⟩ := guard_ok.mp h
  obtain ⟨c, hbody, rfl⟩ := child_ok.mp hlist
  obtain ⟨cs, hlength, hcs, rfl⟩ := Draft.forM_all_ok
    (fun _ hmem _ _ _ => faceCorner_ok (hcorners.items _ (List.mem_reverse.mp hmem))) hbody
  refine ⟨_, ⟨rfl, rfl, ?_, hcs⟩, rfl⟩
  rw [List.length_reverse] at hlength
  show 3 ≤ cs.length
  unfold Literal.size at hthree
  omega

theorem faceList_noNaN {faces : Literal} (hn : n.NoNaN) (h : Shape.faceList n = .ok faces) :
    faces.NoNaN := by
  unfold Shape.faceList at h
  split at h
  · rename_i v hv
    injection h with h
    subst h
    exact hn.param? hv
  · rename_i v hv
    injection h with h
    subst h
    exact hn.param? hv
  · rename_i hnone _
    unfold Node.require at h
    rw [hnone] at h
    exact nomatch h

theorem polyhedron_ok (hn : n.NoNaN) (h : Shape.polyhedron n e = .ok u e') :
    ∃ vertices faces, HasBlocks "polyhedron" [vertices, faces] ∧
      e' = (e.push vertices).push faces := by
  obtain ⟨points, -, hguard⟩ := read_bind_ok.mp h
  obtain ⟨hfour, hlists⟩ := guard_ok.mp hguard
  obtain ⟨_, v, hvertices, hmore⟩ := child_bind_ok.mp hlists
  obtain ⟨faces, hfaces, hlast⟩ := read_bind_ok.mp hmore
  obtain ⟨f, hfacelist, rfl⟩ := child_ok.mp hlast
  have hcount : points.items.length = points.vectorSize?.getD 0 := by
    cases hsize : points.vectorSize? with
    | none => rw [hsize] at hfour; exact absurd (by decide) hfour
    | some k => exact Literal.length_items hsize
  obtain ⟨vs, hvslen, hvs, rfl⟩ :=
    Draft.forM_all_ok (fun _ _ _ _ _ => polyhedronVertex_ok) hvertices
  have hnoNaN := (faceList_noNaN hn hfaces).items
  obtain ⟨fs, -, hfs, rfl⟩ := Draft.forM_all_ok
    (fun _ hmem _ _ _ => face_ok (hnoNaN _ (List.fst_mem_of_mem_zipIdx hmem))) hfacelist
  have hsize : (Element.append (.new "vertices") vs).children.length = points.vectorSize?.getD 0 := by
    show vs.length = _
    rw [hvslen, List.length_zipIdx, hcount]
  refine ⟨_, _, .polyhedron ⟨rfl, rfl, ?_, hvs⟩ ⟨rfl, rfl, Nat.zero_le _, ?_⟩, rfl⟩
  · rw [hsize]
    omega
  · rw [hsize]
    exact hfs

/-! ## Offsets and extrusions -/

theorem offset_ok (h : Shape.offset n e = .ok u e') :
    ∃ delta round chamfer, Field.finite.Admits (.number delta) ∧
      e' = ((e.set "delta" (.number delta)).set "round" (.boolean round)).set
        "chamfer" (.boolean chamfer) := by
  obtain ⟨r, hr, hdelta⟩ := read_bind_ok.mp h
  cases r with
  | some r =>
    obtain ⟨delta, m, hpure, hset⟩ := Draft.bind_ok.mp hdelta
    obtain ⟨rfl, rfl⟩ := pure_ok.mp hpure
    obtain ⟨chamfer, -, hlast⟩ := read_bind_ok.mp (boolean_bind_ok.mp (number_bind_ok.mp hset))
    exact ⟨delta, _, chamfer, Node.number?_ok hr, boolean_ok.mp hlast⟩
  | none =>
    obtain ⟨delta, hnumber, hset⟩ := read_bind_ok.mp hdelta
    obtain ⟨chamfer, -, hlast⟩ := read_bind_ok.mp (boolean_bind_ok.mp (number_bind_ok.mp hset))
    exact ⟨delta, _, chamfer, Node.number_ok hnumber, boolean_ok.mp hlast⟩

theorem linearExtrude_ok (h : Shape.linearExtrude n e = .ok u e') :
    ∃ dz center, Field.positive.Admits (.number dz) ∧
      e' = (e.set "dz" (.number dz)).set "center" (.boolean center) := by
  obtain ⟨twist, -, hguard⟩ := read_bind_ok.mp h
  obtain ⟨-, hheight⟩ := guard_ok.mp hguard
  obtain ⟨height, hnumber, hchecked⟩ := read_bind_ok.mp hheight
  obtain ⟨dz, hpositive, hset⟩ := read_bind_ok.mp hchecked
  obtain ⟨center, -, hlast⟩ := read_bind_ok.mp (number_bind_ok.mp hset)
  obtain ⟨hsame, hpos⟩ := Node.positive_ok hpositive
  refine ⟨dz, center, ?_, boolean_ok.mp hlast⟩
  rw [hsame]
  exact ⟨Node.number_ok hnumber, hpos⟩

/-- `controlPointElement p` — the element of the control point `p`, its place and its tangent. -/
def controlPointElement (p : ControlPoint) : Element :=
  ⟨"cpoint", [("x", .number p.position.x), ("y", .number p.position.y),
    ("z", .number p.position.z), ("vx", .number p.tangent.x), ("vy", .number p.tangent.y),
    ("vz", .number p.tangent.z)], []⟩

theorem controlPoint_ok {p : ControlPoint} (h : Shape.controlPoint p e = .ok u e') :
    e' = e.push (controlPointElement p) := by
  obtain ⟨c, hbody, rfl⟩ := child_ok.mp h
  rw [number_ok.mp hbody]
  rfl

/-- A sweep that is written holds its path, and the path its control points in order. -/
theorem sweep_ok (h : Shape.sweep n e = .ok u e') :
    ∃ s points, Shape.sweepOf n = .ok s ∧ s.controlPoints = .ok points ∧
      e' = e.push ⟨"spline_path", [], points.map controlPointElement⟩ := by
  obtain ⟨s, hs, hpoints⟩ := read_bind_ok.mp h
  obtain ⟨points, m, hrange, hlist⟩ := Draft.bind_ok.mp hpoints
  obtain ⟨hpath, rfl⟩ := Draft.inRange_ok.mp hrange
  obtain ⟨c, hbody, rfl⟩ := child_ok.mp hlist
  have hmake : ∀ p e (u : Unit) e', Shape.controlPoint p e = .ok u e' →
      e' = e.push (controlPointElement p) := fun _ _ _ _ => controlPoint_ok
  refine ⟨s, points, hs, hpath, ?_⟩
  rw [Draft.forM_map_ok hmake hbody]
  rfl

theorem rotateExtrude_ok (h : Shape.rotateExtrude n e = .ok u e') :
    ∃ angle, n.number? "angle" = .ok angle ∧
      e' = e.set "angle" (.number (Angle.ofDegrees (angle.getD 360.0))) := by
  obtain ⟨angle, hangle, hset⟩ := read_bind_ok.mp h
  exact ⟨angle, hangle, number_ok.mp hset⟩

/-! ## Combinations -/

/-- A union only checks its operands and writes nothing itself. -/
theorem union_ok (h : Shape.union target n e = .ok u e') : e' = e := (read_ok.mp h).2

theorem binary_ok (h : Shape.binary target n e = .ok u e') : e' = e :=
  (read_ok.mp (guard_ok.mp h).2).2

end

/-! ## All encoders -/

/-- A path has a control point at least, its base. -/
theorem controlPoints_ne_nil {s : Sweep} {points : List ControlPoint}
    (h : s.controlPoints = .ok points) : points ≠ [] := by
  obtain ⟨segments, -, h⟩ := Outcome.bind_ok.mp h
  obtain ⟨count, -, h⟩ := Outcome.bind_ok.mp h
  injection h with h
  subst h
  exact List.cons_ne_nil _ _

/-- A target with an encoder is the tag of a shape of the schema. -/
theorem mem_shapeTags {target : String} {encoder : Node → Draft Encoding}
    (h : Encodes target encoder) : target ∈ shapeTags := by
  cases h with
  | union htag =>
    have hsub : ∀ t ∈ ["union2d", "union3d", "hull2d", "hull3d"], t ∈ shapeTags := by decide
    exact hsub _ htag
  | binary htag =>
    have hsub : ∀ t ∈ ["difference2d", "difference3d", "intersection2d", "intersection3d",
        "minkowski2d", "minkowski3d"], t ∈ shapeTags := by decide
    exact hsub _ htag
  | _ => decide

/-- The tag of a shape of the schema is a target with an encoder. -/
theorem isSome_encoder? {target : String} (h : target ∈ shapeTags) :
    (Shape.encoder? target).isSome = true := by
  revert target
  simp only [shapeTags, List.forall_mem_cons, List.not_mem_nil, false_imp_iff, implies_true, and_true]
  and_intros <;> rfl

/-- The tags of shapes that have no attributes and no blocks. -/
def bareTags : List String :=
  ["projection2d", "union2d", "union3d", "hull2d", "hull3d", "difference2d", "difference3d",
    "intersection2d", "intersection3d", "minkowski2d", "minkowski3d"]

theorem isBegun_bare {target : String} (h : target ∈ bareTags) : IsBegun target (.new target) := by
  have hfields : fields target = [] := by
    simp only [bareTags, List.mem_cons, List.not_mem_nil, or_false] at h
    rcases h with rfl | rfl | rfl | rfl | rfl | rfl | rfl | rfl | rfl | rfl | rfl <;> rfl
  refine ⟨rfl, by rw [hfields]; exact .nil, ?_, .none ?_⟩
  · rintro rfl
    exact absurd h (by decide)
  · intro hblocks
    have hdisjoint : ∀ t ∈ bareTags, t ∉ ["polygon", "polyhedron", "sweep"] := by decide
    exact hdisjoint target h hblocks

/-- **Every encoder begins its element as the schema asks.**  One case for each line of the
    table. -/
theorem isBegun_of_ok {target : String} {encoder : Node → Draft Encoding} {n : Node}
    {encoding : Encoding} {e : Element} (hencodes : Encodes target encoder) (hn : n.NoNaN)
    (h : encoder n (.new target) = .ok encoding e) : IsBegun target e := by
  cases hencodes with
  | circle =>
    obtain ⟨r, hr, rfl⟩ := ball_ok (Shape.plain_ok h).1
    exact ⟨rfl, .cons ⟨rfl, hr⟩ .nil, nofun, .none (by decide)⟩
  | sphere =>
    obtain ⟨r, hr, rfl⟩ := ball_ok (Shape.plain_ok h).1
    exact ⟨rfl, .cons ⟨rfl, hr⟩ .nil, nofun, .none (by decide)⟩
  | rectangle =>
    obtain ⟨values, center, hvalues, rfl⟩ := box_ok (Shape.plain_ok h).1
    match values, hvalues with
    | [(_, dx), (_, dy)], .cons ⟨rfl, hdx⟩ (.cons ⟨rfl, hdy⟩ .nil) =>
      exact ⟨rfl, .cons ⟨rfl, hdx⟩ (.cons ⟨rfl, hdy⟩ (.cons ⟨rfl, trivial⟩ .nil)), nofun,
        .none (by decide)⟩
  | cuboid =>
    obtain ⟨values, center, hvalues, rfl⟩ := box_ok (Shape.plain_ok h).1
    match values, hvalues with
    | [(_, dx), (_, dy), (_, dz)], .cons ⟨rfl, hdx⟩ (.cons ⟨rfl, hdy⟩ (.cons ⟨rfl, hdz⟩ .nil)) =>
      exact ⟨rfl, .cons ⟨rfl, hdx⟩ (.cons ⟨rfl, hdy⟩ (.cons ⟨rfl, hdz⟩ (.cons ⟨rfl, trivial⟩ .nil))),
        nofun, .none (by decide)⟩
  | cone =>
    obtain ⟨height, r1, r2, center, hheight, hr1, hr2, hsum, rfl⟩ := cone_ok (Shape.plain_ok h).1
    exact ⟨rfl, .cons ⟨rfl, hheight⟩ (.cons ⟨rfl, hr1⟩ (.cons ⟨rfl, hr2⟩ (.cons ⟨rfl, trivial⟩ .nil))),
      fun _ => ⟨r1, r2, rfl, rfl, hsum⟩, .none (by decide)⟩
  | polygon =>
    obtain ⟨vertices, hblocks, rfl⟩ := polygon_ok (Shape.plain_ok h).1
    exact ⟨rfl, .nil, nofun, hblocks⟩
  | polyhedron =>
    obtain ⟨vertices, faces, hblocks, rfl⟩ := polyhedron_ok hn (Shape.plain_ok h).1
    exact ⟨rfl, .nil, nofun, hblocks⟩
  | offset =>
    obtain ⟨delta, round, chamfer, hdelta, rfl⟩ := offset_ok (Shape.plain_ok h).1
    exact ⟨rfl, .cons ⟨rfl, hdelta⟩ (.cons ⟨rfl, trivial⟩ (.cons ⟨rfl, trivial⟩ .nil)), nofun,
      .none (by decide)⟩
  | linearExtrude =>
    obtain ⟨dz, center, hdz, rfl⟩ := linearExtrude_ok (Shape.plain_ok h).1
    exact ⟨rfl, .cons ⟨rfl, hdz⟩ (.cons ⟨rfl, trivial⟩ .nil), nofun, .none (by decide)⟩
  | sweep =>
    obtain ⟨s, points, -, hpoints, rfl⟩ := sweep_ok (Shape.plain_ok h).1
    refine ⟨rfl, .nil, nofun, .sweep ⟨rfl, rfl, ?_, ?_⟩⟩
    · show 1 ≤ (points.map controlPointElement).length
      rw [List.length_map]
      exact List.length_pos_iff.mpr (controlPoints_ne_nil hpoints)
    · intro c hc
      obtain ⟨p, -, rfl⟩ := List.mem_map.mp hc
      exact ⟨rfl, .cons ⟨rfl, trivial⟩ (.cons ⟨rfl, trivial⟩ (.cons ⟨rfl, trivial⟩
        (.cons ⟨rfl, trivial⟩ (.cons ⟨rfl, trivial⟩ (.cons ⟨rfl, trivial⟩ .nil))))), rfl⟩
  | revolution =>
    obtain ⟨angle, -, rfl⟩ := rotateExtrude_ok (Shape.revolution_ok h).1
    exact ⟨rfl, .cons ⟨rfl, trivial⟩ .nil, nofun, .none (by decide)⟩
  | projection =>
    obtain ⟨isCut, -, rfl, -⟩ := Shape.projection_ok h
    exact isBegun_bare (by decide)
  | union htag =>
    have hbare : ∀ t ∈ ["union2d", "union3d", "hull2d", "hull3d"], t ∈ bareTags := by decide
    rw [union_ok (Shape.plain_ok h).1]
    exact isBegun_bare (hbare _ htag)
  | binary htag =>
    have hbare : ∀ t ∈ ["difference2d", "difference3d", "intersection2d", "intersection3d",
        "minkowski2d", "minkowski3d"], t ∈ bareTags := by decide
    rw [binary_ok (Shape.plain_ok h).1]
    exact isBegun_bare (hbare _ htag)

end SolidExport.Schema
