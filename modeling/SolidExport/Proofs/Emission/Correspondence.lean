/-
  Writing a tree loses no shape, doubles none and moves none.

  `IsPlacement` says what a map from kept nodes to places in the output has to do: no two nodes share
  a place, and in the container of a node stand what its encoder put there, its transformation, and
  the places of its kept children, in the order of the source.  `place` is such a map whenever
  writing succeeds (`place_isPlacement`).

  What is not kept is accounted for too: nothing but dummies if nodes without geometry are refused
  (`keeps_of_refusing`), and otherwise each outermost node without geometry has one warning
  (`warnings_of_ok`).
-/
import Mathlib.Data.List.Basic
import SolidExport.Proofs.Emission.Placement
import SolidExport.Proofs.Shape.Encoder

namespace SolidExport

variable {o : EmitOptions}

/-! ## Nodes that are not kept -/

/-- Where nodes without geometry are refused and nothing fails, all nodes but dummies are kept. -/
theorem keeps_of_refusing {n m : Node} {p : List Nat} (hskip : o.skipEmpty = false)
    (h : (emitNodes o n.children).failure = none) (hm : n.at? p = some m)
    (hdummy : m.isDummy = false) : n.keeps p = true := by
  induction p generalizing n with
  | nil => rfl
  | cons i p ih =>
    obtain ⟨c, hi, hm⟩ := Node.at?_cons_eq_some.mp hm
    rcases emitNode_ok ((emitNodes_ok h).1 c (List.mem_of_getElem? hi)) with
      ⟨hc, -⟩ | ⟨-, -, hs, -⟩ | ⟨d, f, hc, hd, -, hcc, -, -⟩
    · -- a dummy holds dummies only
      rw [Node.isDummy_of_at? hc hm] at hdummy
      exact nomatch hdummy
    · rw [hskip] at hs
      exact nomatch hs
    · exact Node.keeps_cons.mpr ⟨c, hi, Node.hasGeometry_iff.mpr ⟨hc, d, hd⟩, ih hcc hm⟩

namespace Node

/-- `n.dropped` — what lies below the node `n` and is dropped from it: shapes without geometry, with
    the paths to them, in nodes that are kept themselves. -/
def dropped (n : Node) : List (List Nat × Node) :=
  n.descendants.filter fun d => n.keeps d.1.dropLast && d.2.isEmptyShape

theorem mem_dropped {n m : Node} {p : List Nat} :
    (p, m) ∈ n.dropped ↔
      p ≠ [] ∧ n.at? p = some m ∧ n.keeps p.dropLast = true ∧ m.isDummy = false ∧
        m.dimension = .ok none := by
  unfold dropped
  rw [List.mem_filter, mem_descendants, Bool.and_eq_true, isEmptyShape_iff, and_assoc]

theorem dropped_sorted (n : Node) : (n.dropped.map Prod.fst).Pairwise (· < ·) :=
  n.descendants_sorted.sublist (List.filter_sublist.map Prod.fst)

/-- What is dropped from the node `n`, child by child: the child itself, if it is an empty shape, or
    what is dropped from it, if it is kept. -/
theorem dropped_eq (n : Node) :
    n.dropped = n.children.zipIdx.flatMap fun c =>
      (if c.1.isEmptyShape then [([c.2], c.1)] else []) ++
      if c.1.hasGeometry then c.1.dropped.map fun d => (c.2 :: d.1, d.2) else [] := by
  unfold dropped
  rw [descendants_eq, List.filter_flatMap]
  refine List.flatMap_congr fun c hc => ?_
  have hi : n.children[c.2]? = some c.1 := List.mk_mem_zipIdx_iff_getElem?.mp hc
  have hhere : (n.keeps [c.2].dropLast && c.1.isEmptyShape) = c.1.isEmptyShape := rfl
  have hbelow : ∀ d ∈ c.1.descendants,
      ((fun d => n.keeps d.1.dropLast && d.2.isEmptyShape) ∘ fun d => (c.2 :: d.1, d.2)) d
        = (c.1.hasGeometry && (c.1.keeps d.1.dropLast && d.2.isEmptyShape)) := by
    intro d hd
    show (n.keeps (c.2 :: d.1).dropLast && d.2.isEmptyShape) = _
    rw [List.dropLast_cons_of_ne_nil (mem_descendants.mp hd).1, keeps, hi, Bool.and_assoc]
  rw [← List.singleton_append, List.filter_append, List.filter_singleton, hhere, cond_eq_ite,
    List.filter_map, List.filter_congr hbelow]
  congr 1
  cases c.1.hasGeometry with
  | true => rfl
  | false => rw [List.filter_congr fun _ _ => Bool.false_and _, List.filter_false]; rfl

end Node

/-- **Each node that is dropped has one warning**, in the order of the document, if nothing fails.
    By induction on the tree. -/
theorem warnings_of_ok {n : Node} (h : (emitNodes o n.children).failure = none) :
    (emitNodes o n.children).warnings
      = n.dropped.map fun d => .emptyShape d.2.line d.2.tag := by
  induction n using Node.induction with
  | step n ih =>
    obtain ⟨hall, -, hw⟩ := emitNodes_ok h
    have hfst : n.children = n.children.zipIdx.map Prod.fst := (List.zipIdx_map_fst 0 _).symm
    rw [hw, Node.dropped_eq, List.map_flatMap]
    conv_lhs => rw [hfst, List.flatMap_map]
    refine List.flatMap_congr fun c hc => ?_
    have hmem : c.1 ∈ n.children := List.fst_mem_of_mem_zipIdx hc
    rcases emitNode_ok (hall c.1 hmem) with
      ⟨hdummy, he⟩ | ⟨hdummy, hd, -, he⟩ | ⟨d, f, hdummy, hd, -, hcc, -, he⟩
    · have hempty : c.1.isEmptyShape = false := by rw [Node.isEmptyShape, hdummy]; rfl
      have hgeometry : c.1.hasGeometry = false := by rw [Node.hasGeometry, hdummy]; rfl
      rw [he, hempty, hgeometry]
      rfl
    · have hempty : c.1.isEmptyShape = true := Node.isEmptyShape_iff.mpr ⟨hdummy, hd⟩
      have hgeometry : c.1.hasGeometry = false := by rw [Node.hasGeometry, hd, Bool.and_false]
      rw [he, hempty, hgeometry]
      rfl
    · have hempty : c.1.isEmptyShape = false := by rw [Node.isEmptyShape, hd, Bool.and_false]
      have hgeometry : c.1.hasGeometry = true := Node.hasGeometry_iff.mpr ⟨hdummy, d, hd⟩
      rw [he, hempty, hgeometry, ih c.1 hmem hcc, if_pos rfl, if_neg Bool.false_ne_true,
        List.nil_append, List.map_map]
      rfl

/-! ## Placements -/

/-- `IsPlacement o root element e` — the map `e` is a placement of the nodes below `root` in
    `element`: it takes the path to a kept node to the path of the element that is written for it
    under the options `o`. -/
structure IsPlacement (o : EmitOptions) (root : Node) (element : Element)
    (e : List Nat → List Nat) : Prop where
  /-- No two kept nodes share a place. -/
  injective : ∀ p q, root.Kept p → root.Kept q → e p = e q → p = q
  /-- The children of the element are the kept children of the root, in order. -/
  outermost : root.keptChildren.map (fun i => e [i])
    = (List.range element.children.length).map fun k => [k]
  /-- The container of a kept node holds what its encoder put there, one transformation at most, and
      its kept children, in order.  It is the node's element, or the intersection that is all there
      is in the element of a cut projection. -/
  written : ∀ p n, root.Kept p → root.at? p = some n →
    ∃ (target : String) (encoder : Node → Draft Encoding) (f : Frame) (container : Element)
      (operands : List Element),
      n.plan o = .ok (.encode target encoder) ∧
      encoder n (.new target) = .ok f.encoding f.element ∧
      n.explicitTransform = .ok f.explicit ∧
      element.at? (e p) = some (f.fill operands) ∧
      (f.fill operands).at? f.holder = some container ∧
      container.children = f.lead ++ f.block ++ operands ∧
      f.block.length ≤ 1 ∧ (∀ b ∈ f.block, b.tag = "tmatrix") ∧
      n.keptChildren.map (fun i => e (p ++ [i]))
        = (List.range operands.length).map
            (fun k => e p ++ f.holder ++ [(f.lead ++ f.block).length + k]) ∧
      (f.encoding.mount = .own ∨
        target = "projection2d" ∧ n.flag "cut" = .ok true ∧
        f.encoding.mount = .nested Shape.cut ∧ (f.fill operands).children = [container])

/-- The element of a cut projection holds its container and nothing else: what it is filled with
    goes into that. -/
theorem Frame.children_fill_of_nested {f : Frame} {inner : Element} {target : String}
    (hmount : f.encoding.mount = .nested inner) (hnew : f.element = .new target)
    (operands : List Element) :
    (f.fill operands).children = [f.container.append (f.block ++ operands)] := by
  rw [fill, container, hmount, hnew]
  rfl

/-- The kept children of a kept node stand in its container, in order and without gaps.  They come
    behind the `offset` elements that the node brings itself. -/
theorem map_place_keptChildren {root n : Node} {f : Frame} {p : List Nat}
    (h : (emitNodes o root.children).failure = none) (hp : root.Kept p) (hn : root.at? p = some n)
    (hf : n.frame? o = some f) (hchildren : (emitNodes o n.children).failure = none) :
    n.keptChildren.map (fun i => place o root (p ++ [i]))
      = (List.range (emitNodes o n.children).elements.length).map
          (fun k => place o root p ++ f.holder ++ [f.offset + k]) := by
  rw [length_elements hchildren, ← Node.map_rank_keptChildren, List.map_map]
  refine List.map_congr_left fun i _ => ?_
  rw [place, placeFrom_append h hp hn hf, Function.comp_apply, List.append_assoc]

/-- **What `place` does.**  If the children of a node are written, `place` puts what is kept below
    it where it is. -/
theorem place_isPlacement {root : Node} {target : String}
    (h : (emitNodes o root.children).failure = none) :
    IsPlacement o root ⟨target, [], (emitNodes o root.children).elements⟩ (place o root) where
  injective p q hp hq heq := placeFrom_injective h hp.2 hq.2 heq
  outermost := by
    have hplace : ∀ i, place o root [i] = [Node.rank root.children i] := by
      intro i
      rw [place, placeFrom_singleton, Nat.zero_add]
      rfl
    rw [length_elements h, ← Node.map_rank_keptChildren, List.map_map]
    exact List.map_congr_left fun i _ => hplace i
  written p n hp hn := by
    obtain ⟨m, f, hm, hf, hcc, hat⟩ := at?_place target h hp
    rw [hn] at hm
    injection hm with hm
    subst hm
    obtain ⟨t, encoder, hplan, hexplicit, hencode⟩ := Node.frame?_eq_some hf
    refine ⟨t, encoder, f, _, _, hplan, hencode, hexplicit, hat, f.at?_fill_holder _,
      (List.append_assoc _ _ _).symm, f.length_block_le, fun b hb => Frame.tag_of_mem_block hb,
      ?_, ?_⟩
    · rw [List.length_append]
      exact map_place_keptChildren h hp hn hf hcc
    · have hencodes := Shape.encodes_of_encoder? (Node.plan_encode hplan).2
      rcases Shape.mount_of_ok hencodes hencode with hown | ⟨ht, hcut, hmount, hnew⟩
      · exact Or.inl hown
      · exact Or.inr ⟨ht, hcut, hmount, Frame.children_fill_of_nested hmount hnew _⟩

/-! ## The root -/

/-- `unionTag d` — the tag of the union of everything in a document of dimension `d`. -/
def unionTag : Dimension → String
  | .flat => "union2d"
  | .solid => "union3d"

/-- Once its dimension is known, the target of a root depends on whether its operands agree. -/
theorem rootTarget_of_dimension {root : Node} {d : Dimension} (hd : root.dimension = .ok (some d)) :
    rootTarget root = do
      Shape.checkUniform root (unionTag d)
      return unionTag d := by
  have hresolve : Template.resolve? rootTemplate (some d) = some (unionTag d) := by
    cases d <;> decide
  unfold rootTarget
  rw [hd]
  dsimp only [bind, Except.bind]
  rw [hresolve]

/-- A root with a target is a union of the dimension that it has, and its operands agree. -/
theorem rootTarget_ok {root : Node} {target : String} (h : rootTarget root = .ok target) :
    ∃ d, root.dimension = .ok (some d) ∧ target = unionTag d ∧
      Shape.checkUniform root target = .ok () := by
  cases hd : root.dimension with
  | error f =>
    unfold rootTarget at h
    rw [hd] at h
    exact nomatch h
  | ok dimension =>
    cases dimension with
    | none =>
      unfold rootTarget at h
      rw [hd] at h
      exact nomatch h
    | some d =>
      refine ⟨d, rfl, ?_⟩
      rw [rootTarget_of_dimension hd] at h
      cases hc : Shape.checkUniform root (unionTag d) with
      | error f => rw [hc] at h; exact nomatch h
      | ok u =>
        rw [hc] at h
        injection h with h
        subst h
        exact ⟨rfl, hc⟩

/-- A root with the dimension `d` whose operands agree has a target, the union of that dimension. -/
theorem rootTarget_of_uniform {root : Node} {d : Dimension} (hd : root.dimension = .ok (some d))
    (huniform : Shape.checkUniform root (unionTag d) = .ok ()) :
    rootTarget root = .ok (unionTag d) := by
  rw [rootTarget_of_dimension hd, huniform]
  rfl

/-- Writing a root that succeeds gives one element, the union of what its children give, and the
    warnings of these. -/
theorem emitRoot_ok {root : Node} (h : (emitRoot o root).failure = none) :
    ∃ d, root.dimension = .ok (some d) ∧ (emitNodes o root.children).failure = none ∧
      (emitRoot o root).elements = [⟨unionTag d, [], (emitNodes o root.children).elements⟩] ∧
      (emitRoot o root).warnings = (emitNodes o root.children).warnings := by
  unfold emitRoot at h ⊢
  cases ht : rootTarget root with
  | error f => rw [ht] at h; exact nomatch h
  | ok target =>
    rw [ht] at h
    obtain ⟨d, hd, rfl, -⟩ := rootTarget_ok ht
    exact ⟨d, hd, h, rfl, rfl⟩

/-- The operands of a root that is written agree in their dimension. -/
theorem checkUniform_of_emitRoot {root : Node} {d : Dimension}
    (h : (emitRoot o root).failure = none) (hd : root.dimension = .ok (some d)) :
    Shape.checkUniform root (unionTag d) = .ok () := by
  unfold emitRoot at h
  cases ht : rootTarget root with
  | error f => rw [ht] at h; exact nomatch h
  | ok target =>
    obtain ⟨d', hd', rfl, huniform⟩ := rootTarget_ok ht
    rw [hd] at hd'
    injection hd' with hd'
    injection hd' with hd'
    subst hd'
    exact huniform

/-- **No shape is lost, doubled or moved.**  Writing a root gives one element, a union of the root's
    dimension, in which each kept node has a place of its own.  Without `skipEmpty` every node but
    dummies is kept; each node that is dropped has a warning, in document order. -/
theorem emitRoot_preserves_shapes {root : Node} (h : (emitRoot o root).failure = none) :
    ∃ (d : Dimension) (element : Element) (e : List Nat → List Nat),
      root.dimension = .ok (some d) ∧ (emitRoot o root).elements = [element] ∧
      element.tag = unionTag d ∧ IsPlacement o root element e ∧
      (o.skipEmpty = false → ∀ p n, p ≠ [] → root.at? p = some n → n.isDummy = false →
        root.Kept p) ∧
      ∃ dropped : List (List Nat × Node), (dropped.map Prod.fst).Pairwise (· < ·) ∧
        (∀ p n, (p, n) ∈ dropped ↔ p ≠ [] ∧ root.at? p = some n ∧
          root.keeps p.dropLast = true ∧ n.isDummy = false ∧ n.dimension = .ok none) ∧
        (emitRoot o root).warnings = dropped.map fun d => .emptyShape d.2.line d.2.tag := by
  obtain ⟨d, hd, hchildren, helements, hwarnings⟩ := emitRoot_ok h
  refine ⟨d, _, place o root, hd, helements, rfl, place_isPlacement hchildren, ?_, root.dropped,
    root.dropped_sorted, fun p n => Node.mem_dropped, ?_⟩
  · intro hskip p n hne hn hdummy
    exact ⟨hne, keeps_of_refusing hskip hchildren hn hdummy⟩
  · rw [hwarnings, warnings_of_ok hchildren]

/-- `Node.sample tag params children` — a node to try things with, on the first line.  Its signature
    does not show its parameters. -/
def Node.sample (tag : String) (params : List (String × Literal)) (children : List Node) : Node :=
  ⟨⟨⟨tag ++ "()", 0, 1⟩, tag, ⟨params⟩⟩, none, children⟩

/-- `EmitOptions.sample skipEmpty` — options to write sample nodes with: the standard targets, and
    sines and cosines that are right to the last digit. -/
def EmitOptions.sample (skipEmpty : Bool) : EmitOptions where
  tagMap := .standard
  skipEmpty := skipEmpty
  trig := .rounded

/-- A dummy, a revolution of a cut sphere that stands behind an empty shape, and a cube. -/
def revolvedCut : Node :=
  .root [.sample "group" [] [],
    .sample "rotate_extrude" []
      [.sample "projection" [("cut", .boolean 1 true)]
        [.sample "color" [] [], .sample "sphere" [("r", .number 1 1.0 "1")] []]],
    .sample "cube" [("size", .number 1 1.0 "1")] []]

theorem emitRoot_preserves_shapes_revolvedCut :
    (emitRoot (.sample true) revolvedCut).failure = none ∧
    ∃ element e, (emitRoot (.sample true) revolvedCut).elements = [element] ∧
      IsPlacement (.sample true) revolvedCut element e := by
  have h : (emitRoot (.sample true) revolvedCut).failure = none := by decide +kernel
  obtain ⟨_, element, e, _, helements, _, hplace, _⟩ := emitRoot_preserves_shapes h
  exact ⟨h, element, e, helements, hplace⟩

end SolidExport
