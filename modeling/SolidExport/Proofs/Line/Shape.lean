/-
  Shapes do not depend on lines.

  A literal is used for its number, its truth value or its items, and none of them has to do with the
  line it stands on; lines are only named in faults.  So each reading of a node, and with it each
  encoder, gives on another line what it gives on the first (`keeps_encoder`).
-/
import SolidExport.Proofs.Draft.Transfer
import SolidExport.Proofs.Line.Tree
import SolidExport.Proofs.Node.Dimension
import SolidExport.Proofs.Shape.Encoder

namespace SolidExport

open Outcome (Keeps)

variable {k : Nat}

/-! ## Literals -/

namespace Literal

theorem isVector_raise (v : Literal) : (v.raise k).isVector = v.isVector := by
  cases v with
  | _ => rw [raise]; rfl

theorem items_raise (v : Literal) : (v.raise k).items = v.items.map (raise k) := by
  cases v with
  | vector line items => rw [raise_vector]; rfl
  | _ => rw [raise]; simp [items, raise]

theorem size_raise (v : Literal) : (v.raise k).size = v.size := by
  unfold size
  rw [items_raise, List.length_map]

theorem vectorSize?_raise (v : Literal) : (v.raise k).vectorSize? = v.vectorSize? := by
  cases v with
  | vector line items =>
    rw [raise_vector]
    simp [vectorSize?]
  | _ => rw [raise]; rfl

theorem keeps_toNumber (v : Literal) : Keeps id v.toNumber (v.raise k).toNumber := by
  cases v with
  | number line value text => rw [raise]; exact .refl _
  | _ => exact .error

theorem keeps_toInteger (v : Literal) : Keeps id v.toInteger (v.raise k).toInteger :=
  (keeps_toNumber v).map Double.trunc

theorem keeps_toBoolean (v : Literal) : Keeps id v.toBoolean (v.raise k).toBoolean := by
  cases v with
  | boolean line value => rw [raise]; exact .refl _
  | number line value text => rw [raise]; exact .refl _
  | _ => exact .error

theorem keeps_get (v : Literal) (index : Float) :
    Keeps (raise k) (v.get index) ((v.raise k).get index) := by
  have hitem : (Double.toNat? index).bind ((v.raise k).items[·]?)
      = ((Double.toNat? index).bind (v.items[·]?)).map (raise k) := by
    rw [items_raise]
    cases Double.toNat? index with
    | none => rfl
    | some i => simp
  intro item hget
  unfold get at hget ⊢
  rw [hitem]
  cases hfound : (Double.toNat? index).bind (v.items[·]?) with
  | none => rw [hfound] at hget; exact nomatch hget
  | some found =>
    rw [hfound] at hget
    rw [← Except.ok.inj hget]
    rfl

end Literal

/-! ## Matrices -/

namespace Matrix

theorem keeps_readCell (row col : Nat) (v : Literal) :
    Keeps id (readCell row col v) (readCell row col (v.raise k)) := by
  refine .bind (Literal.keeps_toNumber v) fun x => ?_
  dsimp only [id]
  split
  · exact .refl _
  · exact .error

theorem keeps_readRow (row : Nat) (v : Literal) :
    Keeps id (readRow row v) (readRow row (v.raise k)) := by
  unfold readRow
  rw [Literal.vectorSize?_raise, Literal.items_raise, List.zipIdx_map]
  split
  · exact .mapM fun cell _ => keeps_readCell row cell.2 cell.1
  · exact .error

theorem keeps_ofLiteral (v : Literal) : Keeps id (ofLiteral v) (ofLiteral (v.raise k)) := by
  unfold ofLiteral
  rw [Literal.vectorSize?_raise, Literal.items_raise, List.zipIdx_map]
  split
  · exact .bind (.mapM fun cells _ => keeps_readRow cells.2 cells.1) fun rows => .refl _
  · exact .error

end Matrix

/-! ## Nodes -/

namespace Node

variable {n : Node} {name : String} {v : Literal}

theorem tag_raise (n : Node) : (n.raise k).tag = n.tag := by
  rw [raise_eq]
  rfl

theorem children_raise (n : Node) : (n.raise k).children = n.children.map (raise k) := by
  rw [raise_eq]

theorem param?_raise (n : Node) (name : String) :
    (n.raise k).param? name = (n.param? name).map (Literal.raise k) := by
  rw [raise_eq]
  exact Params.get?_raise n.params name

theorem keeps_require : Keeps (Literal.raise k) (n.require name) ((n.raise k).require name) := by
  unfold require
  rw [param?_raise]
  cases n.param? name with
  | none => exact .error
  | some v => exact .ok v

theorem keeps_finite : Keeps id (n.finite name v) ((n.raise k).finite name (v.raise k)) := by
  unfold finite
  rw [Literal.isVector_raise]
  split
  · exact .error
  · refine .bind (Literal.keeps_toNumber v) fun x => ?_
    dsimp only [id]
    split
    · exact .refl _
    · exact .error

theorem keeps_number : Keeps id (n.number name) ((n.raise k).number name) :=
  .bind keeps_require fun _ => keeps_finite

theorem keeps_number? : Keeps id (n.number? name) ((n.raise k).number? name) := by
  unfold number?
  rw [param?_raise]
  cases n.param? name with
  | none => exact .refl _
  | some v => exact keeps_finite.map some

theorem keeps_flag : Keeps id (n.flag name) ((n.raise k).flag name) := by
  unfold flag
  rw [param?_raise]
  cases n.param? name with
  | none => exact .refl _
  | some v =>
    dsimp only [Option.map_some]
    rw [Literal.isVector_raise]
    split
    · exact .error
    · exact Literal.keeps_toBoolean v

theorem keeps_positive {x : Float} : Keeps id (n.positive name x) ((n.raise k).positive name x) := by
  unfold positive
  split
  · exact .refl _
  · exact .error

theorem keeps_nonNegative {x : Float} :
    Keeps id (n.nonNegative name x) ((n.raise k).nonNegative name x) := by
  unfold nonNegative
  split
  · exact .refl _
  · exact .error

theorem keeps_radius? {diameter : String} :
    Keeps id (n.radius? name diameter) ((n.raise k).radius? name diameter) := by
  refine .bind keeps_number? fun r => ?_
  cases r with
  | some r => exact .refl _
  | none => exact .bind keeps_number? fun _ => .refl _

theorem keeps_radius {diameter : String} :
    Keeps id (n.radius name diameter) ((n.raise k).radius name diameter) := by
  refine .bind keeps_radius? fun r => ?_
  cases r with
  | some r => exact keeps_positive
  | none => exact .error

theorem keeps_extents {axes : Nat} :
    Keeps id (n.extents name axes) ((n.raise k).extents name axes) := by
  have hseveral : ∀ items : List Literal,
      Keeps id
        (if items.length < axes then throw (n.fault (.tooFewExtents name axes items.length))
          else (items.take axes).mapM (n.finite name))
        (if (items.map (Literal.raise k)).length < axes then
            throw ((n.raise k).fault (.tooFewExtents name axes (items.map (Literal.raise k)).length))
          else ((items.map (Literal.raise k)).take axes).mapM ((n.raise k).finite name)) := by
    intro items
    rw [List.length_map, ← List.map_take]
    split
    · exact .error
    · exact .mapM fun _ _ => keeps_finite
  refine .bind keeps_require fun v => ?_
  cases v with
  | vector line items =>
    rw [Literal.raise_vector]
    match items with
    | [] => exact hseveral []
    | [item] => exact .bind keeps_finite fun _ => .refl _
    | first :: second :: rest => exact hseveral (first :: second :: rest)
  | number line value text =>
    exact .bind (keeps_finite (v := .number line value text)) fun _ => .refl _
  | boolean line value => exact .bind (keeps_finite (v := .boolean line value)) fun _ => .refl _
  | string line value => exact .bind (keeps_finite (v := .string line value)) fun _ => .refl _

/-! ## Dimensions -/

theorem allDummy_raise {ns : List Node} (h : ∀ c ∈ ns, (c.raise k).isDummy = c.isDummy) :
    allDummy (ns.map (raise k)) = allDummy ns := by
  induction ns with
  | nil => rfl
  | cons n ns ih =>
    rw [List.map_cons, allDummy, allDummy, h n List.mem_cons_self,
      ih fun c hc => h c (List.mem_cons_of_mem n hc)]

theorem isDummy_raise (n : Node) : (n.raise k).isDummy = n.isDummy := by
  induction n using Node.induction with
  | step n ih => rw [isDummy_eq, isDummy_eq, tag_raise, children_raise, allDummy_raise ih]

theorem countChildren_raise (n : Node) : (n.raise k).countChildren = n.countChildren := by
  unfold countChildren
  rw [children_raise, List.filter_map, List.length_map]
  congr 2
  funext c
  show (!(c.raise k).isDummy) = !c.isDummy
  rw [isDummy_raise]

theorem keeps_ownDimension (n : Node) : Keeps id n.ownDimension (n.raise k).ownDimension := by
  unfold ownDimension
  rw [tag_raise]
  split
  · exact .error
  · exact .refl _

theorem keeps_firstDimension {ns : List Node}
    (h : ∀ c ∈ ns, Keeps id c.dimension (c.raise k).dimension) :
    Keeps id (firstDimension ns) (firstDimension (ns.map (raise k))) := by
  induction ns with
  | nil => exact .refl _
  | cons c ns ih =>
    have hrest := ih fun m hm => h m (List.mem_cons_of_mem c hm)
    rw [List.map_cons, firstDimension, firstDimension, isDummy_raise, tag_raise]
    split
    · exact hrest
    · refine .bind c.keeps_ownDimension fun own => ?_
      cases own with
      | some d => exact .refl _
      | none =>
        dsimp only [id]
        split
        · refine .bind (h c List.mem_cons_self) fun inner => ?_
          cases inner with
          | some d => exact .refl _
          | none => exact hrest
        · exact hrest

theorem keeps_dimension (n : Node) : Keeps id n.dimension (n.raise k).dimension := by
  induction n using Node.induction with
  | step n ih =>
    rw [dimension_eq, dimension_eq, children_raise]
    refine .bind n.keeps_ownDimension fun own => ?_
    cases own with
    | some d => exact .refl _
    | none => exact keeps_firstDimension ih

theorem keeps_secondDimension (seen : Option Dimension) (ns : List Node) :
    Keeps id (Shape.secondDimension seen ns) (Shape.secondDimension seen (ns.map (raise k))) := by
  induction ns generalizing seen with
  | nil => exact .refl _
  | cons c ns ih =>
    rw [List.map_cons, Shape.secondDimension, Shape.secondDimension, isDummy_raise]
    split
    · exact ih seen
    · refine .bind c.keeps_dimension fun d => ?_
      dsimp only [id]
      split
      · exact ih _
      · exact ih _
      · split
        · exact ih _
        · exact .refl _

theorem keeps_checkUniform (n : Node) (target : String) :
    Keeps id (Shape.checkUniform n target) (Shape.checkUniform (n.raise k) target) := by
  unfold Shape.checkUniform
  rw [children_raise]
  refine .bind (keeps_secondDimension none n.children) fun second => ?_
  cases second with
  | none => exact .refl _
  | some pair => exact .error

end Node

/-! ## Encoders -/

namespace Shape

open Draft (Keeps)

variable (n : Node)

theorem keeps_ball : Keeps (ball n) (ball (n.raise k)) :=
  .read_bind Node.keeps_radius fun _ => .refl _

theorem keeps_coneRadius {both : Option Float} {radius diameter : String} :
    Outcome.Keeps id (coneRadius n both radius diameter)
      (coneRadius (n.raise k) both radius diameter) := by
  refine .bind Node.keeps_radius? fun own => ?_
  dsimp only [id]
  split
  · exact Node.keeps_nonNegative
  · exact .error

theorem keeps_cone : Keeps (cone n) (cone (n.raise k)) := by
  refine .read_bind Node.keeps_number fun _ => .read_bind Node.keeps_positive fun _ => ?_
  refine .read_bind Node.keeps_radius? fun both => ?_
  refine .read_bind (keeps_coneRadius n) fun r1 => .read_bind (keeps_coneRadius n) fun r2 => ?_
  dsimp only [id]
  split
  · refine .bind (.refl _) fun _ => .bind (.refl _) fun _ => .bind (.refl _) fun _ => ?_
    exact .read_bind Node.keeps_flag fun _ => .refl _
  · exact .fault

theorem keeps_box (axes : List String) : Keeps (box axes n) (box axes (n.raise k)) := by
  refine .read_bind Node.keeps_extents fun extents => .bind (.forM fun item => ?_) fun _ => ?_
  · exact .read_bind Node.keeps_positive fun _ => .refl _
  · exact .read_bind Node.keeps_flag fun _ => .refl _

theorem keeps_polygonOrder (count : Nat) :
    Outcome.Keeps id (polygonOrder n count) (polygonOrder (n.raise k) count) := by
  unfold polygonOrder
  dsimp only
  rw [Node.param?_raise]
  cases n.param? "paths" with
  | none => exact .refl _
  | some v =>
    dsimp only [Option.map_some]
    cases v with
    | vector line paths =>
      rw [Literal.raise_vector]
      match paths with
      | [] => exact .refl _
      | [path] =>
        show Outcome.Keeps id (path.items.mapM Literal.toInteger)
          ((path.raise k).items.mapM Literal.toInteger)
        rw [Literal.items_raise]
        exact .mapM fun v _ => v.keeps_toInteger
      | _ :: _ :: _ => exact .error
    | _ => rw [Literal.raise]; exact .refl _

theorem keeps_polygonVertex (points : Literal) (count : Nat) (index : Float) :
    Keeps (polygonVertex n points count index)
      (polygonVertex (n.raise k) (points.raise k) count index) := by
  refine .guard (.read_bind (points.keeps_get index) fun point => ?_)
  cases point with
  | vector line items =>
    rw [Literal.raise_vector]
    match items with
    | [] => exact .fault
    | [_] => exact .fault
    | _ :: _ :: _ =>
      refine .child (.read_bind Node.keeps_finite fun _ => .bind (.refl _) fun _ => ?_)
      exact .read_bind Node.keeps_finite fun _ => .refl _
  | _ => exact .fault

theorem keeps_polygon : Keeps (polygon n) (polygon (n.raise k)) := by
  refine .read_bind Node.keeps_require fun points => ?_
  rw [Literal.vectorSize?_raise]
  refine .read_bind (keeps_polygonOrder n _) fun order => .guard ?_
  exact .child (.forM fun index => keeps_polygonVertex n points _ index)

theorem keeps_polyhedronVertex (index : Nat) (point : Literal) :
    Keeps (polyhedronVertex n index point) (polyhedronVertex (n.raise k) index (point.raise k)) := by
  cases point with
  | vector line items =>
    rw [Literal.raise_vector]
    match items with
    | [] => exact .fault
    | [_] => exact .fault
    | [_, _] => exact .fault
    | _ :: _ :: _ :: _ =>
      refine .child (.read_bind Node.keeps_finite fun _ => .bind (.refl _) fun _ => ?_)
      refine .read_bind Node.keeps_finite fun _ => .bind (.refl _) fun _ => ?_
      exact .read_bind Node.keeps_finite fun _ => .refl _
  | _ => exact .fault

theorem keeps_face (count index : Nat) (corners : Literal) :
    Keeps (face n count index corners) (face (n.raise k) count index (corners.raise k)) := by
  unfold face
  rw [Literal.size_raise, Literal.items_raise, ← List.map_reverse]
  refine .guard (.child (.forM_map fun corner => ?_))
  exact .read_bind corner.keeps_toInteger fun _ => .guard (.refl _)

theorem keeps_faceList : Outcome.Keeps (Literal.raise k) (faceList n) (faceList (n.raise k)) := by
  unfold faceList
  rw [Node.param?_raise, Node.param?_raise]
  cases n.param? "faces" with
  | some v => exact .ok v
  | none =>
    cases n.param? "triangles" with
    | some v => exact .ok v
    | none => exact Node.keeps_require

theorem keeps_polyhedron : Keeps (polyhedron n) (polyhedron (n.raise k)) := by
  refine .read_bind Node.keeps_require fun points => ?_
  rw [Literal.vectorSize?_raise, Literal.items_raise, List.zipIdx_map]
  refine .guard (.bind (.child (.forM_map fun _ => keeps_polyhedronVertex n _ _)) fun _ => ?_)
  refine .read_bind (keeps_faceList n) fun faces => .child ?_
  rw [Literal.items_raise, List.zipIdx_map]
  exact .forM_map fun _ => keeps_face n _ _ _

theorem keeps_offset : Keeps (offset n) (offset (n.raise k)) := by
  refine .read_bind Node.keeps_number? fun r => ?_
  cases r with
  | some r =>
    refine .bind (.refl _) fun _ => .bind (.refl _) fun _ => .bind (.refl _) fun _ => ?_
    exact .read_bind Node.keeps_flag fun _ => .refl _
  | none =>
    refine .read_bind Node.keeps_number fun _ => .bind (.refl _) fun _ => .bind (.refl _) fun _ => ?_
    exact .read_bind Node.keeps_flag fun _ => .refl _

theorem keeps_linearExtrude : Keeps (linearExtrude n) (linearExtrude (n.raise k)) := by
  refine .read_bind Node.keeps_number? fun twist => .guard (.read_bind Node.keeps_number fun _ => ?_)
  refine .read_bind Node.keeps_positive fun _ => .bind (.refl _) fun _ => ?_
  exact .read_bind Node.keeps_flag fun _ => .refl _

theorem keeps_rotateExtrude : Keeps (rotateExtrude n) (rotateExtrude (n.raise k)) :=
  .read_bind Node.keeps_number? fun _ => .refl _

theorem keeps_binary (target : String) : Keeps (binary target n) (binary target (n.raise k)) := by
  unfold binary
  rw [Node.countChildren_raise]
  exact .guard (.read (n.keeps_checkUniform target))

/-! ## Sweeps -/

theorem keeps_scaleFactor (v : Literal) :
    Outcome.Keeps id (scaleFactor n v) (scaleFactor (n.raise k) (v.raise k)) :=
  .bind Node.keeps_finite fun _ => Node.keeps_nonNegative

theorem keeps_topScale : Outcome.Keeps id (topScale n) (topScale (n.raise k)) := by
  have hone : ∀ v : Literal, Outcome.Keeps id
      (do let s ← scaleFactor n v; return (s, s))
      (do let s ← scaleFactor (n.raise k) (v.raise k); return (s, s)) :=
    fun v => .bind (keeps_scaleFactor n v) fun _ => .refl _
  unfold topScale
  rw [Node.param?_raise]
  cases n.param? "scale" with
  | none => exact .refl _
  | some v =>
    dsimp only [Option.map_some]
    cases v with
    | vector line items =>
      have hget := fun items => (Literal.vector line items).keeps_get (k := k) 0.0
      rw [Literal.raise_vector]
      match items with
      | [] => exact .bind (Literal.raise_vector line [] ▸ hget []) hone
      | [item] => exact .bind (Literal.raise_vector line [item] ▸ hget [item]) hone
      | x :: y :: _ =>
        refine .bind (keeps_scaleFactor n x) fun _ => .bind (keeps_scaleFactor n y) fun _ => .refl _
    | number line value text => exact hone (.number line value text)
    | boolean line value => exact hone (.boolean line value)
    | string line value => exact hone (.string line value)

theorem keeps_sweepOf : Outcome.Keeps id (sweepOf n) (sweepOf (n.raise k)) := by
  refine .bind Node.keeps_number fun _ => .bind Node.keeps_positive fun _ => ?_
  refine .bind Node.keeps_number? fun _ => .bind Node.keeps_number? fun _ => ?_
  exact .bind (keeps_topScale n) fun _ => .bind Node.keeps_flag fun _ => .refl _

/-! ## The table -/

theorem keeps_plain {body : Node → Draft Unit} (h : Keeps (body n) (body (n.raise k))) :
    Keeps (plain body n) (plain body (n.raise k)) :=
  .bind h fun _ => .refl _

/-- **Every encoder writes on another line what it writes on the first.**  One case for each line of
    the table; faults name lines, so failures are not compared. -/
theorem keeps_encoder {trig : Trig} {target : String} {encoder : Node → Draft Encoding}
    (h : Encodes target encoder) : Keeps (encoder n) (encoder (n.raise k)) := by
  cases h with
  | circle => exact keeps_plain n (keeps_ball n)
  | sphere => exact keeps_plain n (keeps_ball n)
  | rectangle => exact keeps_plain n (keeps_box n _)
  | polygon => exact keeps_plain n (keeps_polygon n)
  | offset => exact keeps_plain n (keeps_offset n)
  | projection => exact .read_bind Node.keeps_flag fun _ => .refl _
  | cuboid => exact keeps_plain n (keeps_box n _)
  | cone => exact keeps_plain n (keeps_cone n)
  | polyhedron => exact keeps_plain n (keeps_polyhedron n)
  | linearExtrude => exact keeps_plain n (keeps_linearExtrude n)
  | sweep => exact keeps_plain n (.read_bind (keeps_sweepOf n) fun _ => .refl _)
  | revolution => exact .bind (keeps_rotateExtrude n) fun _ => .refl _
  | union _ => exact keeps_plain n (.read (n.keeps_checkUniform _))
  | binary _ => exact keeps_plain n (keeps_binary n _)

end Shape

end SolidExport
