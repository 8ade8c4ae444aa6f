/-
  Polygons follow their path.

  A polygon visits its points in an order (`VisitOrder`): along its only path, or all in a row.  It
  can be written exactly if the order names at least three points and each of them begins with two
  finite numbers; the corners are then those of the points, in that order
  (`polygon_follows_order`).  Points that are not named may be anything.
-/
import SolidExport.Proofs.Shape.Point

namespace SolidExport

open Double (IsIndex)
open Draft (read_bind_ok guard_ok child_ok number_ok)

/-- The corners of a polygon that can be written: at least three, all with finite coordinates. -/
structure Contour where
  corners : List (Float × Float)
  three_le : 3 ≤ corners.length
  finite : ∀ c ∈ corners, c.1.isFinite = true ∧ c.2.isFinite = true

namespace Contour

/-- `cornerElement c` — the element that is written for the corner `c`, a vertex of two
    coordinates. -/
def cornerElement (c : Float × Float) : Element := vertexElement ["x", "y"] [c.1, c.2]

/-- `c.element tag` — what is written for the contour `c` under `tag`: its corners and nothing
    else. -/
def element (tag : String) (c : Contour) : Element :=
  ⟨tag, [], [⟨"vertices", [], c.corners.map cornerElement⟩]⟩

end Contour

namespace Node

/-- `n.VisitOrder count order` — the order in which the node `n` visits `count` points: along its
    only path, or all in a row if there is no path.  There is none for a node with more paths than
    one. -/
inductive VisitOrder (n : Node) (count : ℕ) : List Float → Prop where
  | along {line : Int} {path : Literal} {order : List Float}
      (hpath : n.param? "paths" = some (.vector line [path]))
      (horder : List.Forall₂ Literal.TruncatesTo path.items order) : VisitOrder n count order
  | all (hnone : ∀ line path more, n.param? "paths" ≠ some (.vector line (path :: more))) :
      VisitOrder n count ((List.range count).map Float.ofNat)

/-- `NamesCorner points count x c` — the index `x` names the corner `c`: it is a whole number below
    `count`, and the point there begins with the coordinates of `c`. -/
def NamesCorner (points : Literal) (count : ℕ) (x : Float) (c : Float × Float) : Prop :=
  ∃ k point, IsIndex count x k ∧ points.items[k]? = some point ∧ point.BeginsWith [c.1, c.2]

/-- `n.HasContour c` — the points of the node `n`, in the order in which it visits them, are the
    corners of the contour `c`. -/
def HasContour (n : Node) (c : Contour) : Prop :=
  ∃ points order, n.param? "points" = some points ∧
    n.VisitOrder (points.vectorSize?.getD 0) order ∧
    List.Forall₂ (NamesCorner points (points.vectorSize?.getD 0)) order c.corners

end Node

namespace Shape

variable {n : Node} {e e' : Element} {u : Unit} {count : ℕ}

theorem polygonOrder_ok {order : List Float} :
    polygonOrder n count = .ok order ↔ n.VisitOrder count order := by
  have hall : (∀ line path more, n.param? "paths" ≠ some (.vector line (path :: more))) →
      (Except.ok ((List.range count).map Float.ofNat) = (.ok order : Except Fault _) ↔
        n.VisitOrder count order) := by
    intro hnone
    rw [Except.ok.injEq]
    constructor
    · rintro rfl
      exact .all hnone
    · intro h
      cases h with
      | along hpath _ => exact absurd hpath (hnone _ _ _)
      | all _ => rfl
  rw [polygonOrder]
  cases hp : n.param? "paths" with
  | none => exact hall fun line path more => by rw [hp]; nofun
  | some paths =>
    cases paths with
    | number | boolean | string => exact hall fun line path more => by rw [hp]; nofun
    | vector line paths =>
      match paths with
      | [] => exact hall fun line path more => by rw [hp]; nofun
      | [path] =>
        show path.items.mapM Literal.toInteger = .ok order ↔ _
        simp only [Outcome.mapM_ok_iff, Literal.toInteger_ok]
        constructor
        · intro h
          exact .along hp h
        · intro h
          cases h with
          | along hpath horder =>
            rw [hp] at hpath
            injection hpath with hpath
            injection hpath with _ hpath
            injection hpath with hpath
            subst hpath
            exact horder
          | all hnone => exact absurd hp (hnone _ _ _)
      | path :: path' :: more =>
        refine iff_of_false nofun fun h => ?_
        cases h with
        | along hpath _ =>
          rw [hp] at hpath
          exact nomatch hpath
        | all hnone => exact absurd hp (hnone _ _ _)

theorem polygonVertex_ok {points : Literal} {x : Float} :
    polygonVertex n points count x e = .ok u e' ↔
      ∃ c, Node.NamesCorner points count x c ∧ e' = e.push (Contour.cornerElement c) := by
  refine guard_ok.trans ?_
  constructor
  · rintro ⟨hrange, hread⟩
    obtain ⟨point, hpoint, hmatch⟩ := read_bind_ok.mp hread
    obtain ⟨k, hk, hitem⟩ := Literal.get_ok.mp hpoint
    split at hmatch
    · rename_i line a b rest
      obtain ⟨vertex, hbody, rfl⟩ := child_ok.mp hmatch
      obtain ⟨cx, hx, hmore⟩ := coordinate_ok.mp hbody
      obtain ⟨cy, hy, hlast⟩ := read_bind_ok.mp hmore
      refine ⟨(cx, cy), ⟨k, _, Double.isIndex_iff.mpr ⟨hk, hrange⟩, hitem, ?_⟩, ?_⟩
      · exact ⟨line, [a, b], rest, rfl, .cons hx (.cons (Node.finite_ok_iff.mp hy) .nil)⟩
      · rw [number_ok.mp hlast]
        rfl
    · exact nomatch hmatch
  · rintro ⟨⟨cx, cy⟩, ⟨k, point, hindex, hitem, hbegins⟩, rfl⟩
    obtain ⟨hk, hrange⟩ := Double.isIndex_iff.mp hindex
    obtain ⟨line, front, rest, rfl, hall⟩ := hbegins
    rcases hall with _ | ⟨hx, _ | ⟨hy, _ | _⟩⟩
    refine ⟨hrange, read_bind_ok.mpr ⟨_, Literal.get_ok.mpr ⟨k, hk, hitem⟩, ?_⟩⟩
    refine child_ok.mpr ⟨_, coordinate_ok.mpr ⟨cx, hx, read_bind_ok.mpr ⟨cy, ?_, ?_⟩⟩, rfl⟩
    · exact Node.finite_ok_iff.mpr hy
    · exact number_ok.mpr rfl

/-- **A polygon follows its path.**  It is written exactly if it visits at least three of its points
    and each of these begins with two finite numbers; what is written is their contour. -/
theorem polygon_follows_order (n : Node) (tag : String) (e : Element) :
    polygon n (.new tag) = .ok () e ↔ ∃ c : Contour, n.HasContour c ∧ e = c.element tag := by
  have hloop : ∀ (points : Literal) (order : List Float) (v : Element) (u : Unit),
      order.forM (polygonVertex n points (points.vectorSize?.getD 0)) (.new "vertices") = .ok u v ↔
        ∃ corners, List.Forall₂ (Node.NamesCorner points (points.vectorSize?.getD 0)) order corners ∧
          v = (Element.new "vertices").append (corners.map Contour.cornerElement) :=
    fun _ _ _ _ => Draft.forM_push_ok fun _ _ _ _ _ => polygonVertex_ok
  constructor
  · intro h
    obtain ⟨points, hpoints, h⟩ := read_bind_ok.mp h
    obtain ⟨order, horder, h⟩ := read_bind_ok.mp h
    obtain ⟨hthree, h⟩ := guard_ok.mp h
    obtain ⟨v, hbody, rfl⟩ := child_ok.mp h
    obtain ⟨corners, hcorners, rfl⟩ := (hloop points order v ()).mp hbody
    have hlength := hcorners.length_eq
    refine ⟨⟨corners, by omega, ?_⟩, ⟨points, order, Node.require_ok.mp hpoints, ?_, hcorners⟩, rfl⟩
    · intro c hc
      obtain ⟨x, -, k, point, -, -, hbegins⟩ := Outcome.exists_of_forall₂ hcorners hc
      have hfinite := hbegins.isFinite
      exact ⟨hfinite c.1 (by simp), hfinite c.2 (by simp)⟩
    · exact polygonOrder_ok.mp horder
  · rintro ⟨c, ⟨points, order, hpoints, horder, hcorners⟩, rfl⟩
    have hlength := hcorners.length_eq
    have hthree := c.three_le
    refine read_bind_ok.mpr ⟨points, Node.require_ok.mpr hpoints, ?_⟩
    refine read_bind_ok.mpr ⟨order, polygonOrder_ok.mpr horder, ?_⟩
    refine guard_ok.mpr ⟨by omega, child_ok.mpr ⟨_, (hloop points order _ ()).mpr ?_, rfl⟩⟩
    exact ⟨c.corners, hcorners, rfl⟩

example : (match Head.read ⟨"polygon(points=[[0,0],9,[1,0],[0,1]],paths=[[0,2,3.9]])", 0, 1⟩ with
    | .ok head => match polygon ⟨head, none, []⟩ (.new "polygon") with
      | .ok _ e => e.children.map (·.children.length)
      | .error _ _ => []
    | .error _ => []) = [3] := by decide +kernel

end Shape

end SolidExport
