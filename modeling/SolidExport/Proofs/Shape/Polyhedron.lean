/-
  Polyhedra keep their mesh.

  A polyhedron is a list of points and a list of faces, each of which names its corners by index
  (`Mesh`).  A node that has such a mesh is written as it, with each face turned around, and no
  other node is written (`polyhedron_keeps_mesh`).  A scalar counts as a vector of itself, but only
  where it is too short to pass.
-/
import SolidExport.Proofs.Node.NoNaN
import SolidExport.Proofs.Node.Outline
import SolidExport.Proofs.Shape.Point
import SolidExport.Sweep

namespace SolidExport

open Double (IsIndex)
open Draft (read_bind_ok guard_ok child_ok child_bind_ok number_ok)

/-- A mesh that can be written: at least four finite points, and faces that each name at least three
    of them. -/
structure Mesh where
  points : List Vec3
  faces : List (List Float)
  four_le : 4 ≤ points.length
  finite : ∀ p ∈ points, p.x.isFinite = true ∧ p.y.isFinite = true ∧ p.z.isFinite = true
  three_le : ∀ f ∈ faces, 3 ≤ f.length
  indexes : ∀ f ∈ faces, ∀ x ∈ f, ∃ k, IsIndex points.length x k

namespace Mesh

/-- `pointElement p` — the element that is written for a point. -/
def pointElement (p : Vec3) : Element := vertexElement ["x", "y", "z"] [p.x, p.y, p.z]

/-- `cornerElement x` — the element that is written for a corner of a face, which is the index of a
    point. -/
def cornerElement (x : Float) : Element := ⟨"fv", [("index", .number x)], []⟩

/-- `faceElement f` — the element that is written for a face: its corners in reverse, since the
    target turns its faces the other way round. -/
def faceElement (f : List Float) : Element := ⟨"face", [], f.reverse.map cornerElement⟩

/-- `element tag m` — what is written for the mesh `m` under a tag: its points, its faces and
    nothing else. -/
def element (tag : String) (m : Mesh) : Element :=
  ⟨tag, [], [⟨"vertices", [], m.points.map pointElement⟩, ⟨"faces", [], m.faces.map faceElement⟩]⟩

end Mesh

/-- `v.ListsCorners f` — the literal `v` is a vector of numbers that are the corners `f` without
    their fractions. -/
def Literal.ListsCorners (v : Literal) (f : List Float) : Prop :=
  ∃ line corners, v = .vector line corners ∧ List.Forall₂ TruncatesTo corners f

namespace Node

/-- `n.IsMade` — the node `n` is as nodes are made: read from a statement, or the root.  So its
    parameters are what its signature says. -/
def IsMade (n : Node) : Prop := Head.read n.head.statement = .ok n.head ∨ n.head = (root []).head

/-- `n.HasMesh m` — the points and faces of the node `n` are those of the mesh `m`; older dumps call
    the faces triangles. -/
structure HasMesh (n : Node) (m : Mesh) : Prop where
  points : ∃ line items, n.param? "points" = some (.vector line items) ∧
    List.Forall₂ (fun v (p : Vec3) => v.BeginsWith [p.x, p.y, p.z]) items m.points
  faces : ∃ line items, (n.param? "faces").or (n.param? "triangles") = some (.vector line items) ∧
    List.Forall₂ Literal.ListsCorners items m.faces

/-- No parameter of a node that is made from a text has a NaN in it. -/
theorem IsMade.noNaN {n : Node} (h : n.IsMade) : n.params.NoNaN := by
  rcases h with hread | hroot
  · exact Head.read_noNaN hread
  · unfold Node.params
    rw [hroot]
    exact fun b hb => absurd hb List.not_mem_nil

end Node

namespace Shape

variable {n : Node} {e e' : Element} {u : Unit} {count i : ℕ}

theorem polyhedronVertex_ok {point : Literal} :
    polyhedronVertex n i point e = .ok u e' ↔
      ∃ p : Vec3, point.BeginsWith [p.x, p.y, p.z] ∧ e' = e.push (Mesh.pointElement p) := by
  constructor
  · intro h
    unfold polyhedronVertex at h
    split at h
    · rename_i line a b c rest
      obtain ⟨vertex, hbody, rfl⟩ := child_ok.mp h
      obtain ⟨x, hx, hmore⟩ := coordinate_ok.mp hbody
      obtain ⟨y, hy, hmore⟩ := coordinate_ok.mp hmore
      obtain ⟨z, hz, hlast⟩ := read_bind_ok.mp hmore
      refine ⟨⟨x, y, z⟩, ⟨line, [a, b, c], rest, rfl, ?_⟩, ?_⟩
      · exact .cons hx (.cons hy (.cons (Node.finite_ok_iff.mp hz) .nil))
      · rw [number_ok.mp hlast]
        rfl
    · exact nomatch h
  · rintro ⟨⟨x, y, z⟩, ⟨line, front, rest, rfl, hall⟩, rfl⟩
    rcases hall with _ | ⟨hx, _ | ⟨hy, _ | ⟨hz, _ | _⟩⟩⟩
    refine child_ok.mpr ⟨_, coordinate_ok.mpr ⟨x, hx, coordinate_ok.mpr ⟨y, hy, ?_⟩⟩, rfl⟩
    exact read_bind_ok.mpr ⟨z, Node.finite_ok_iff.mpr hz, number_ok.mpr rfl⟩

/-- A corner is written if it is an index.  A NaN would pass the check as well, since it is neither
    below zero nor at least the count. -/
theorem faceCorner_ok {corner : Literal} (hcorner : corner.NoNaN) :
    faceCorner n count i corner e = .ok u e' ↔
      ∃ x, (corner.TruncatesTo x ∧ ∃ k, IsIndex count x k) ∧ e' = e.push (Mesh.cornerElement x) := by
  refine read_bind_ok.trans ?_
  constructor
  · rintro ⟨x, hx, hguard⟩
    obtain ⟨y, hy, rfl⟩ := Literal.toInteger_ok.mp hx
    obtain ⟨hrange, hchild⟩ := guard_ok.mp hguard
    obtain ⟨c, hbody, rfl⟩ := child_ok.mp hchild
    refine ⟨_, ⟨⟨y, hy, rfl⟩, (Double.exists_isIndex_iff (hcorner.toNumber hy)).mpr hrange⟩, ?_⟩
    rw [number_ok.mp hbody]
    rfl
  · rintro ⟨x, ⟨hx, k, hk⟩, rfl⟩
    refine ⟨x, Literal.toInteger_ok.mpr hx, guard_ok.mpr ⟨(Double.isIndex_iff.mp hk).2, ?_⟩⟩
    exact child_ok.mpr ⟨_, number_ok.mpr rfl, rfl⟩

/-- A face is written exactly if its corners are at least three indexes, and then in reverse. -/
theorem face_ok {corners : Literal} (hcorners : corners.NoNaN) :
    face n count i corners e = .ok u e' ↔
      ∃ f, (corners.ListsCorners f ∧ 3 ≤ f.length ∧ ∀ x ∈ f, ∃ k, IsIndex count x k) ∧
        e' = e.push (Mesh.faceElement f) := by
  have hloop : ∀ (c : Element) (u : Unit),
      corners.items.reverse.forM (faceCorner n count i) (.new "face") = .ok u c ↔
        ∃ f, List.Forall₂ (fun v x => v.TruncatesTo x ∧ ∃ k, IsIndex count x k)
            corners.items.reverse f ∧
          c = (Element.new "face").append (f.map Mesh.cornerElement) := by
    intro c u
    refine Draft.forM_push_ok fun corner hmem _ _ _ => faceCorner_ok ?_
    exact hcorners.items corner (List.mem_reverse.mp hmem)
  refine guard_ok.trans ?_
  constructor
  · rintro ⟨hthree, hchild⟩
    obtain ⟨c, hbody, rfl⟩ := child_ok.mp hchild
    obtain ⟨f, hf, rfl⟩ := (hloop c u).mp hbody
    rw [← List.reverse_reverse f, List.forall₂_reverse_iff, Outcome.forall₂_and_right] at hf
    have hlength := hf.1.length_eq
    unfold Literal.size at hthree
    refine ⟨f.reverse, ⟨?_, by omega, hf.2⟩, ?_⟩
    · -- a scalar has one item only
      cases corners with
      | vector line items => exact ⟨line, items, rfl, hf.1⟩
      | _ => exact absurd (show 1 < 3 by decide) hthree
    · unfold Mesh.faceElement
      rw [List.reverse_reverse]
      rfl
  · rintro ⟨f, ⟨⟨line, items, rfl, hf⟩, hthree, hindex⟩, rfl⟩
    have hlength : items.length = f.length := hf.length_eq
    refine ⟨?_, child_ok.mpr ⟨_, (hloop _ u).mpr ⟨f.reverse, ?_, rfl⟩, rfl⟩⟩
    · show ¬ items.length < 3
      omega
    · rw [List.forall₂_reverse_iff, Outcome.forall₂_and_right]
      exact ⟨hf, hindex⟩

theorem faceList_ok {faces : Literal} :
    faceList n = .ok faces ↔ (n.param? "faces").or (n.param? "triangles") = some faces := by
  unfold faceList
  cases hfaces : n.param? "faces" with
  | some v =>
    show Except.ok v = .ok faces ↔ some v = some faces
    rw [Except.ok.injEq, Option.some_inj]
  | none =>
    cases n.param? "triangles" with
    | some v =>
      show Except.ok v = .ok faces ↔ some v = some faces
      rw [Except.ok.injEq, Option.some_inj]
    | none =>
      rw [Node.require_ok, hfaces]
      exact iff_of_false nofun nofun

/-- The points of a polyhedron are written in order, exactly if each begins with three finite
    numbers. -/
theorem polyhedronVertices_ok {items : List Literal} :
    (items.zipIdx.forM fun (point, i) => polyhedronVertex n i point) (.new "vertices") = .ok u e' ↔
      ∃ points : List Vec3,
        List.Forall₂ (fun v (p : Vec3) => v.BeginsWith [p.x, p.y, p.z]) items points ∧
        e' = ⟨"vertices", [], points.map Mesh.pointElement⟩ :=
  Draft.forM_zipIdx_push_ok fun _ _ _ _ _ _ => polyhedronVertex_ok

/-- The faces of a polyhedron are written in order, exactly if each has at least three corners that
    are indexes. -/
theorem polyhedronFaces_ok {faces : Literal} (hfaces : faces.NoNaN) :
    (faces.items.zipIdx.forM fun (corners, i) => face n count i corners) (.new "faces") = .ok u e' ↔
      ∃ fs, List.Forall₂ Literal.ListsCorners faces.items fs ∧
        (∀ f ∈ fs, 3 ≤ f.length ∧ ∀ x ∈ f, ∃ k, IsIndex count x k) ∧
        e' = ⟨"faces", [], fs.map Mesh.faceElement⟩ := by
  have hbody : ∀ v ∈ faces.items, ∀ i e u e', face n count i v e = .ok u e' ↔
      ∃ f, (v.ListsCorners f ∧ 3 ≤ f.length ∧ ∀ x ∈ f, ∃ k, IsIndex count x k) ∧
        e' = e.push (Mesh.faceElement f) :=
    fun v hv _ _ _ _ => face_ok (hfaces.items v hv)
  refine (Draft.forM_zipIdx_push_ok hbody).trans (exists_congr fun fs => ?_)
  rw [Outcome.forall₂_and_right, and_assoc]
  rfl

/-- **A polyhedron keeps its mesh.**  A node is written exactly if it has a mesh, and then as its
    points and its faces, each turned around. -/
theorem polyhedron_keeps_mesh (n : Node) (hn : n.IsMade) (tag : String) (e : Element) :
    polyhedron n (.new tag) = .ok () e ↔ ∃ m : Mesh, n.HasMesh m ∧ e = m.element tag := by
  have hnan : ∀ faces, (n.param? "faces").or (n.param? "triangles") = some faces → faces.NoNaN := by
    intro faces h
    rcases Option.or_eq_some_iff.mp h with h | ⟨-, h⟩
    · exact hn.noNaN.get? h
    · exact hn.noNaN.get? h
  constructor
  · intro h
    obtain ⟨points, hp, h⟩ := read_bind_ok.mp h
    obtain ⟨hfour, h⟩ := guard_ok.mp h
    obtain ⟨_, v, hv, h⟩ := child_bind_ok.mp h
    obtain ⟨faces, hf, h⟩ := read_bind_ok.mp h
    obtain ⟨w, hw, rfl⟩ := child_ok.mp h
    rw [Node.require_ok] at hp
    rw [faceList_ok] at hf
    obtain ⟨ps, hps, rfl⟩ := polyhedronVertices_ok.mp hv
    obtain ⟨fs, hfs, hall, rfl⟩ := (polyhedronFaces_ok (hnan faces hf)).mp hw
    cases points with
    | number | boolean | string => exact absurd (show 0 < 4 by decide) hfour
    | vector line items =>
      have hlength : items.length = ps.length := hps.length_eq
      have hcount : (Literal.vector line items).vectorSize?.getD 0 = ps.length := hlength
      rw [hcount] at hfour hall
      refine ⟨⟨ps, fs, not_lt.mp hfour, ?_, fun f hmem => (hall f hmem).1,
        fun f hmem => (hall f hmem).2⟩, ⟨⟨line, items, hp, hps⟩, ?_⟩, rfl⟩
      · intro p hmem
        obtain ⟨point, -, hbegins⟩ := Outcome.exists_of_forall₂ hps hmem
        have hfinite := hbegins.isFinite
        exact ⟨hfinite p.x (by simp), hfinite p.y (by simp), hfinite p.z (by simp)⟩
      · -- a scalar is its own only face, and no vector of corners
        cases faces with
        | vector line' items' => exact ⟨line', items', hf, hfs⟩
        | _ =>
          rcases hfs with _ | ⟨⟨line', corners, hscalar, -⟩, -⟩
          exact nomatch hscalar
  · rintro ⟨m, ⟨⟨line, items, hp, hps⟩, ⟨line', items', hf, hfs⟩⟩, rfl⟩
    have hcount : (Literal.vector line items).vectorSize?.getD 0 = m.points.length := hps.length_eq
    refine read_bind_ok.mpr ⟨_, Node.require_ok.mpr hp, ?_⟩
    simp only [hcount]
    refine guard_ok.mpr ⟨not_lt.mpr m.four_le, ?_⟩
    refine child_bind_ok.mpr ⟨(), _, polyhedronVertices_ok.mpr ⟨m.points, hps, rfl⟩, ?_⟩
    refine read_bind_ok.mpr ⟨_, faceList_ok.mpr hf, ?_⟩
    refine child_ok.mpr ⟨_, (polyhedronFaces_ok (hnan _ hf)).mpr ⟨m.faces, hfs, ?_, rfl⟩, rfl⟩
    intro f hmem
    exact ⟨m.three_le f hmem, m.indexes f hmem⟩

/-- An open tetrahedron in an older dump, with a coordinate too many and a corner with a fraction. -/
theorem polyhedron_keeps_mesh_tetrahedron :
    ∃ n : Node, n.IsMade ∧ ∃ m : Mesh, n.HasMesh m ∧ m.points.length = 4 ∧ m.faces.length = 2 ∧
      polyhedron n (.new "polyhedron") = .ok () (m.element "polyhedron") := by
  have hrun : ∃ s, (match Head.read s with
      | .ok head => match polyhedron ⟨head, none, []⟩ (.new "polyhedron") with
        | .ok _ e => e.children.map (·.children.length)
        | .error _ _ => []
      | .error _ => []) = [4, 2] :=
    ⟨⟨"polyhedron(points=[[0,0,0],[1,0,0],[0,1,0],[0,0,1,9]],triangles=[[0,2,1.5],[0,1,3]])", 0, 1⟩,
      by decide +kernel⟩
  obtain ⟨s, hrun⟩ := hrun
  cases hhead : Head.read s with
  | error f => rw [hhead] at hrun; exact nomatch hrun
  | ok head =>
    have hmade : Node.IsMade ⟨head, none, []⟩ := by
      left
      rw [(Head.read_ok hhead).1]
      exact hhead
    rw [hhead] at hrun
    cases he : polyhedron ⟨head, none, []⟩ (.new "polyhedron") with
    | error f e => simp only [he] at hrun; exact nomatch hrun
    | ok u e =>
      simp only [he] at hrun
      obtain ⟨m, hm, rfl⟩ := (polyhedron_keeps_mesh _ hmade "polyhedron" e).mp he
      simp only [Mesh.element, List.map_cons, List.map_nil, List.length_map, List.cons.injEq] at hrun
      exact ⟨_, hmade, m, hm, hrun.1, hrun.2.1, he⟩

end Shape

end SolidExport
