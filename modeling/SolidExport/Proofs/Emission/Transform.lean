/-
  Transformations reach the output cell by cell.

  A node may be given a matrix (`Node.Given`: as the first parameter of `multmatrix`, or of
  `rotate_extrude` if there is one), and the encoder of a revolution corrects its axis.  The first
  depends on the tag in the source, the second on the target, so all four combinations occur
  (`Combines`).  `Node.Transforms` says without reference to how it is computed which matrix a node has
  in the end; `Frame.transforms` is that the frame of a node has that one.

  In the output the matrix stands in the container of the node, behind the blocks of the encoder and
  before the operands, and neither of these is a matrix (`Frame.tag_of_mem_lead`).  In the tree it is
  left on the node; every other transformation stays as it was (`transform_at?`).
-/
import SolidExport.Proofs.Emission.Correspondence
import SolidExport.Proofs.Emission.Nodes
import SolidExport.Proofs.Emission.Target
import SolidExport.Proofs.Matrix.Cells

namespace SolidExport

/-! ## Which matrix a node has -/

/-- `n.Given m` — the matrix that the node `n` is given as its first parameter: `multmatrix` must
    have one, `rotate_extrude` may, and any other tag has none, whatever its first parameter is. -/
inductive Node.Given (n : Node) : Option Matrix → Prop where
  | matrix {v : Literal} {m : Matrix} (htag : n.tag = "multmatrix" ∨ n.tag = "rotate_extrude")
      (hv : n.param? "_p000" = some v) (hm : v.IsMatrix m) : Given n (some m)
  | nothing (htag : n.tag ≠ "multmatrix")
      (hparam : n.tag = "rotate_extrude" → n.param? "_p000" = none) : Given n none

/-- `n.correction? o` — what the target of the node `n` adds to its matrix: a revolution is turned
    about the first axis, from the plane where its profile is drawn. -/
def Node.correction? (o : EmitOptions) (n : Node) : Option Matrix :=
  if n.target? o = some "rotate_extrude" then some (@Matrix.rotationX o.trig (-90.0)) else none

/-- `Combines c m t` — the transformation `t` is the matrix `m` and after it the correction `c`,
    where either may be missing.  The cells of a product are summed in the order of the columns,
    which matters for doubles. -/
inductive Combines : Option Matrix → Option Matrix → Option Matrix → Prop where
  | neither : Combines none none none
  | given (m : Matrix) : Combines none (some m) (some m)
  | correction (c : Matrix) : Combines (some c) none (some c)
  | both {c m t : Matrix} (hlength : t.cells.length = 16)
      (hcells : ∀ i j : Nat, i < 4 → j < 4 → t.element i j
        = 0.0 + c.element i 0 * m.element 0 j + c.element i 1 * m.element 1 j
          + c.element i 2 * m.element 2 j + c.element i 3 * m.element 3 j) :
      Combines (some c) (some m) (some t)

/-- `n.Transforms o t` — the transformation `t` is the one that the node `n` has when it is written
    under the options `o`. -/
def Node.Transforms (o : EmitOptions) (n : Node) (t : Option Matrix) : Prop :=
  ∃ m, n.Given m ∧ Combines (n.correction? o) m t

/-- The matrix that a node is given is the one that is read from its first parameter. -/
theorem Node.given_of_ok {n : Node} {m : Option Matrix} (h : n.explicitTransform = .ok m) :
    n.Given m := by
  have hname : Params.positionalName 0 = "_p000" := by decide
  unfold explicitTransform at h
  simp only [hname] at h
  split at h
  · rename_i v hv
    split at h
    · rename_i htag
      obtain ⟨m', hm', rfl⟩ := Outcome.map_ok.mp h
      exact .matrix htag hv (Matrix.ofLiteral_isMatrix hm')
    · rename_i htag
      injection h with h
      subst h
      exact .nothing (fun hm => htag (Or.inl hm)) (fun hr => absurd (Or.inr hr) htag)
  · rename_i hv
    split at h
    · exact nomatch h
    · rename_i htag
      injection h with h
      subst h
      exact .nothing htag fun _ => hv

/-- Composing two transformations combines them, where either may be missing. -/
theorem combines_compose (c m : Option Matrix) : Combines c m (Matrix.compose c m) := by
  cases c with
  | none =>
    cases m with
    | none => exact .neither
    | some m => exact .given m
  | some c =>
    cases m with
    | none => exact .correction c
    | some m =>
      exact .both (Matrix.length_mul c m) fun i j hi hj => Matrix.element_mul c m hi hj

namespace Shape

variable {target : String} {encoder : Node → Draft Encoding} {n : Node} {e e' : Element}
  {encoding : Encoding}

/-! ## Which children an encoder adds -/

/-- The tags of the blocks that encoders write in front of the transformation, which is no such
    block. -/
def blockTags : List String := ["vertices", "faces", "spline_path"]

theorem tag_of_hasBlocks {blocks : List Element} (h : Schema.HasBlocks target blocks) :
    ∀ b ∈ blocks, b.tag ∈ blockTags := by
  intro b hb
  cases h with
  | polygon hvertices =>
    rw [List.mem_singleton.mp hb, hvertices.tag_eq]
    decide
  | polyhedron hvertices hfaces =>
    rcases List.mem_cons.mp hb with rfl | hb
    · rw [hvertices.tag_eq]
      decide
    · rw [List.mem_singleton.mp hb, hfaces.tag_eq]
      decide
  | sweep hpath =>
    rw [List.mem_singleton.mp hb, hpath.tag_eq]
    decide
  | none _ => exact absurd hb List.not_mem_nil

/-- `AddsBlocks e e'` — all that `e'` holds more than `e` are blocks of encoders, behind what was
    there. -/
def AddsBlocks (e e' : Element) : Prop :=
  ∃ blocks, e'.children = e.children ++ blocks ∧ ∀ b ∈ blocks, b.tag ∈ blockTags

theorem AddsBlocks.of_eq (h : e'.children = e.children) : AddsBlocks e e' :=
  ⟨[], by rw [h, List.append_nil], fun b hb => absurd hb List.not_mem_nil⟩

theorem AddsBlocks.push {b : Element} (h : AddsBlocks e e') (hb : b.tag ∈ blockTags) :
    AddsBlocks e (e'.push b) := by
  obtain ⟨blocks, hchildren, hblocks⟩ := h
  refine ⟨blocks ++ [b], ?_, fun c hc => ?_⟩
  · show e'.children ++ [b] = _
    rw [hchildren, List.append_assoc]
  · rcases List.mem_append.mp hc with hc | hc
    · exact hblocks c hc
    · rw [List.mem_singleton.mp hc]
      exact hb

theorem children_foldl_set (values : List (String × Attribute)) (e : Element) :
    (values.foldl (fun e a => e.set a.1 a.2) e).children = e.children := by
  induction values generalizing e with
  | nil => rfl
  | cons a values ih => rw [List.foldl_cons, ih]; rfl

theorem addsBlocks_of_box {axes : List String} {u : Unit} (h : box axes n e = .ok u e') :
    AddsBlocks e e' := by
  obtain ⟨values, center, -, rfl⟩ := Schema.box_ok h
  exact .of_eq (children_foldl_set values e)

/-- A polyhedron adds two blocks to its element, its vertices and its faces. -/
theorem addsBlocks_of_polyhedron {u : Unit} (h : polyhedron n e = .ok u e') : AddsBlocks e e' := by
  have hface : ∀ count (c : Literal × Nat) e u e', face n count c.2 c.1 e = .ok u e' →
      ∃ f, True ∧ e' = e.push f := by
    intro count c e u e' hface
    obtain ⟨f, -, rfl⟩ := Draft.child_ok.mp (Draft.guard_ok.mp hface).2
    exact ⟨f, trivial, rfl⟩
  obtain ⟨points, -, hguard⟩ := Draft.read_bind_ok.mp h
  obtain ⟨_, v, hvertices, hmore⟩ := Draft.child_bind_ok.mp (Draft.guard_ok.mp hguard).2
  obtain ⟨faces, -, hlast⟩ := Draft.read_bind_ok.mp hmore
  obtain ⟨f, hfaces, rfl⟩ := Draft.child_ok.mp hlast
  obtain ⟨vs, -, -, rfl⟩ :=
    Draft.forM_all_ok (fun _ _ _ _ _ => Schema.polyhedronVertex_ok) hvertices
  obtain ⟨fs, -, -, rfl⟩ := Draft.forM_all_ok (fun c _ => hface _ c) hfaces
  have hvertices : "vertices" ∈ blockTags := by decide
  have hfaces : "faces" ∈ blockTags := by decide
  exact ((AddsBlocks.of_eq rfl).push hvertices).push hfaces

/-- **An encoder adds blocks and nothing else** to the children of its element.  One case for each
    line of the table. -/
theorem addsBlocks_of_ok {trig : Trig} (hencodes : Encodes target encoder)
    (h : encoder n e = .ok encoding e') : AddsBlocks e e' := by
  cases hencodes with
  | circle =>
    obtain ⟨r, -, rfl⟩ := Schema.ball_ok (plain_ok h).1
    exact .of_eq rfl
  | sphere =>
    obtain ⟨r, -, rfl⟩ := Schema.ball_ok (plain_ok h).1
    exact .of_eq rfl
  | rectangle => exact addsBlocks_of_box (plain_ok h).1
  | cuboid => exact addsBlocks_of_box (plain_ok h).1
  | cone =>
    obtain ⟨_, _, _, _, -, -, -, -, rfl⟩ := Schema.cone_ok (plain_ok h).1
    exact .of_eq rfl
  | polygon =>
    obtain ⟨vertices, hblocks, rfl⟩ := Schema.polygon_ok (plain_ok h).1
    exact (AddsBlocks.of_eq rfl).push (tag_of_hasBlocks hblocks _ List.mem_cons_self)
  | polyhedron => exact addsBlocks_of_polyhedron (plain_ok h).1
  | offset =>
    obtain ⟨_, _, _, -, rfl⟩ := Schema.offset_ok (plain_ok h).1
    exact .of_eq rfl
  | linearExtrude =>
    obtain ⟨_, _, -, rfl⟩ := Schema.linearExtrude_ok (plain_ok h).1
    exact .of_eq rfl
  | sweep =>
    obtain ⟨_, _, -, -, rfl⟩ := Schema.sweep_ok (plain_ok h).1
    have hpath : "spline_path" ∈ blockTags := by decide
    exact (AddsBlocks.of_eq rfl).push hpath
  | revolution =>
    obtain ⟨angle, -, rfl⟩ := Schema.rotateExtrude_ok (revolution_ok h).1
    exact .of_eq rfl
  | projection =>
    obtain ⟨isCut, -, rfl, -⟩ := projection_ok h
    exact .of_eq rfl
  | union _ =>
    rw [Schema.union_ok (plain_ok h).1]
    exact .of_eq rfl
  | binary _ =>
    rw [Schema.binary_ok (plain_ok h).1]
    exact .of_eq rfl

end Shape

/-! ## The matrix in the output -/

section

variable {o : EmitOptions} {n : Node} {f : Frame}

/-- **The transformation of a frame** is the one that the node has, under the same options. -/
theorem Frame.transforms (hf : n.frame? o = some f) : n.Transforms o f.transform := by
  obtain ⟨target, encoder, hplan, hexplicit, hencode⟩ := Node.frame?_eq_some hf
  have hencodes := Shape.encodes_of_encoder? (Node.plan_encode hplan).2
  have htarget : n.target? o = some target := by rw [Node.target?, hplan]
  have hcorrection : f.encoding.corrective = n.correction? o := by
    rw [Shape.corrective_of_ok hencodes hencode, Node.correction?, htarget]
    simp only [Option.some.injEq]
  -- the tag of the source decides about one matrix, the target about the other
  refine ⟨f.explicit, Node.given_of_ok hexplicit, ?_⟩
  rw [← hcorrection]
  exact combines_compose _ _

/-- A transformation that a node has is a matrix of sixteen cells. -/
theorem Node.Transforms.length_cells {t : Matrix} (h : n.Transforms o (some t)) :
    t.cells.length = 16 := by
  obtain ⟨m, hgiven, hcombines⟩ := h
  generalize hc : n.correction? o = c at hcombines
  cases hcombines with
  | given =>
    cases hgiven with
    | matrix _ _ hm => exact hm.1
  | correction =>
    unfold Node.correction? at hc
    split at hc
    · injection hc with hc
      rw [← hc]
      rfl
    · exact nomatch hc
  | both hlength _ => exact hlength

/-- The transformation of a frame is written cell by cell, each under its own name. -/
theorem Frame.block_eq (hf : n.frame? o = some f) :
    f.block = f.transform.toList.map Matrix.cellBlock := by
  have htransforms := f.transforms hf
  unfold block
  cases ht : f.transform with
  | none => rfl
  | some t =>
    rw [ht] at htransforms
    exact congrArg (fun b => [b]) (Matrix.matrixBlock_eq htransforms.length_cells)

/-- What an encoder puts in front of the operands is no matrix, so the first matrix in an element is
    its own. -/
theorem Frame.tag_of_mem_lead (hf : n.frame? o = some f) {b : Element} (hb : b ∈ f.lead) :
    b.tag ≠ "tmatrix" := by
  obtain ⟨target, encoder, -, hencodes, hencode⟩ := Node.encodes_of_frame hf
  rcases Shape.mount_of_ok hencodes hencode with hown | ⟨-, -, hnested, -⟩
  · have hlead : f.lead = f.element.children := by rw [lead, container, hown]
    obtain ⟨blocks, hchildren, hblocks⟩ := Shape.addsBlocks_of_ok hencodes hencode
    rw [hlead, hchildren] at hb
    have hother : ∀ t ∈ Shape.blockTags, t ≠ "tmatrix" := by decide
    exact hother _ (hblocks b hb)
  · have hlead : f.lead = Shape.cut.children := by rw [lead, container, hnested]
    rw [hlead] at hb
    rw [List.mem_singleton.mp hb]
    decide

/-- What a child is written as is no matrix. -/
theorem tag_of_mem_elements {n : Node} (h : (emitNodes o n.children).failure = none) {s : Element}
    (hs : s ∈ (emitNodes o n.children).elements) : s.tag ≠ "tmatrix" := by
  obtain ⟨c, f, -, -, hf, rfl⟩ := exists_child_of_mem_elements h hs
  have hother : ∀ t ∈ Schema.shapeTags, t ≠ "tmatrix" := by decide
  exact hother _ (Frame.tag_fill_mem hf _)

/-! ## The matrix in the tree -/

/-- A node without geometry that is written is left as it was: it is given no transformation. -/
theorem nodes_of_no_geometry (h : (emitNode o n).failure = none) (hgeometry : n.hasGeometry = false) :
    (emitNode o n).nodes = [n] := by
  rcases emitNode_ok h with ⟨-, he⟩ | ⟨-, -, -, he⟩ | ⟨d, f, hdummy, hd, -⟩
  · rw [he]
    rfl
  · rw [he]
  · rw [Node.hasGeometry_iff.mpr ⟨hdummy, d, hd⟩] at hgeometry
    exact nomatch hgeometry

/-- **What writing leaves on the nodes.**  Induction on the path: a child that is a dummy or dropped is
    left as it was with everything in it, any other child takes the transformation of its frame. -/
theorem transform_at? {n left : Node} (h : (emitNodes o n.children).failure = none)
    (hleft : left.children = (emitNodes o n.children).nodes) {p : List Nat} (hp : p ≠ []) {m : Node}
    (hm : n.at? p = some m) :
    ∃ m', left.at? p = some m' ∧ (n.keeps p = false → m'.transform = m.transform) ∧
      ∀ f, n.keeps p = true → m.frame? o = some f →
        m'.transform = f.transform.orElse fun _ => m.transform := by
  induction p generalizing n left with
  | nil => exact absurd rfl hp
  | cons i p ih =>
    obtain ⟨c, hi, hm⟩ := Node.at?_cons_eq_some.mp hm
    obtain ⟨c', hc', hnode⟩ := getElem?_nodes h hi
    have hat : ∀ q, left.at? (i :: q) = c'.at? q := Node.at?_cons (by rw [hleft, hnode])
    rw [hat]
    have hkeeps : n.keeps (i :: p) = (c.hasGeometry && c.keeps p) := by rw [Node.keeps, hi]
    rw [hkeeps]
    have hok := (emitNodes_ok h).1 c (List.mem_of_getElem? hi)
    cases hgeometry : c.hasGeometry with
    | false =>
      -- the child is not written, so nothing in it was touched
      rw [nodes_of_no_geometry hok hgeometry] at hc'
      injection hc' with hc'
      subst hc'
      exact ⟨m, hm, fun _ => rfl, fun f hkept => absurd hkept Bool.false_ne_true⟩
    | true =>
      obtain ⟨f, hf, hchildren, -⟩ := elements_of_geometry hok hgeometry
      have hwritten := emitNode_frame (Node.hasGeometry_iff.mp hgeometry).1 hf
      rw [hwritten] at hc'
      injection hc' with hc'
      subst hc'
      cases p with
      | nil =>
        injection hm with hm
        subst hm
        refine ⟨_, rfl, fun hkept => absurd hkept.symm Bool.false_ne_true, fun g _ hg => ?_⟩
        rw [hf] at hg
        injection hg with hg
        subst hg
        rfl
      | cons j p =>
        exact ih hchildren rfl (List.cons_ne_nil _ _) hm

end

/-! ## The root -/

/-- Writing a root leaves it with its children as they are left, and gives it no transformation. -/
theorem nodes_emitRoot {o : EmitOptions} {root : Node} (h : (emitRoot o root).failure = none) :
    (emitRoot o root).nodes = [{ root with children := (emitNodes o root.children).nodes }] := by
  unfold emitRoot at h ⊢
  cases ht : rootTarget root with
  | error f => rw [ht] at h; exact nomatch h
  | ok target => rfl

/-- **Transformations reach the output cell by cell.**  Writing a root gives one element with a place
    for each kept node, and leaves one tree.  In the container of a kept node stand the blocks of its
    encoder, the transformation of the node if it has one, and its operands, and no other matrix; the
    node is left with that transformation.  Every other transformation stays as it was. -/
theorem emitRoot_writes_transforms {o : EmitOptions} {root : Node}
    (h : (emitRoot o root).failure = none) :
    ∃ (element : Element) (e : List Nat → List Nat) (left : Node),
      (emitRoot o root).elements = [element] ∧ IsPlacement o root element e ∧
      (∀ c ∈ element.children, c.tag ≠ "tmatrix") ∧ (emitRoot o root).nodes = [left] ∧
      (∀ p n, root.Kept p → root.at? p = some n →
        ∃ (t : Option Matrix) (f : Frame) (container : Element) (operands : List Element) (n' : Node),
          n.Transforms o t ∧ n.frame? o = some f ∧ element.at? (e p) = some (f.fill operands) ∧
          (f.fill operands).at? f.holder = some container ∧
          container.children = f.lead ++ t.toList.map Matrix.cellBlock ++ operands ∧
          (∀ c ∈ f.lead ++ operands, c.tag ≠ "tmatrix") ∧
          n.keptChildren.map (fun i => e (p ++ [i])) = (List.range operands.length).map
            (fun k => e p ++ f.holder ++ [f.lead.length + t.toList.length + k]) ∧
          left.at? p = some n' ∧ n'.transform = t.orElse fun _ => n.transform) ∧
      ∀ p n, ¬root.Kept p → root.at? p = some n →
        ∃ n', left.at? p = some n' ∧ n'.transform = n.transform := by
  obtain ⟨d, -, hchildren, helements, -⟩ := emitRoot_ok h
  obtain ⟨left, hnodes, hleft, hroot⟩ : ∃ left : Node, (emitRoot o root).nodes = [left] ∧
      left.children = (emitNodes o root.children).nodes ∧ left.transform = root.transform :=
    ⟨_, nodes_emitRoot h, rfl, rfl⟩
  refine ⟨_, place o root, left, helements, place_isPlacement hchildren,
    fun c hc => tag_of_mem_elements hchildren hc, hnodes, ?_, ?_⟩
  · intro p n hp hn
    obtain ⟨m, f, hm, hf, hoperands, hat⟩ := at?_place (unionTag d) hchildren hp
    obtain rfl : n = m := Option.some.inj (hn.symm.trans hm)
    obtain ⟨n', hn', -, htransform⟩ := transform_at? hchildren hleft hp.1 hn
    have hblock := f.block_eq hf
    refine ⟨f.transform, f, _, _, n', f.transforms hf, hf, hat, f.at?_fill_holder _, ?_, ?_, ?_, hn',
      htransform f hp.2 hf⟩
    · rw [← hblock, List.append_assoc]
      rfl
    · intro c hc
      rcases List.mem_append.mp hc with hc | hc
      · exact Frame.tag_of_mem_lead hf hc
      · exact tag_of_mem_elements hoperands hc
    · have hoffset : f.lead.length + f.transform.toList.length = f.offset := by
        rw [Frame.offset, hblock, List.length_map]
      rw [hoffset]
      exact map_place_keptChildren hchildren hp hn hf hoperands
  · intro p n hp hn
    by_cases hempty : p = []
    · -- the root is written as a union, whatever its tag
      subst hempty
      injection hn with hn
      subst hn
      exact ⟨left, rfl, hroot⟩
    · have hdropped : root.keeps p = false := by
        rw [← Bool.not_eq_true]
        exact fun hkeeps => hp ⟨hempty, hkeeps⟩
      obtain ⟨n', hn', hsame, -⟩ := transform_at? hchildren hleft hempty hn
      exact ⟨n', hn', hsame hdropped⟩

/-- A matrix as a literal, with no two cells alike. -/
def shear : Literal :=
  let row (xs : List Float) : Literal := .vector 1 (xs.map (.ofFloat 1))
  .vector 1 [row [1.0, 2.0, 3.0, 4.0], row [5.0, 6.0, 7.0, 8.0], row [9.0, 10.0, 11.0, 12.0],
    row [13.0, 14.0, 15.0, 16.0]]

/-- A revolution with a matrix of its own. -/
def shearedRing : Node :=
  .sample "rotate_extrude" [("_p000", shear)]
    [.sample "square" [("size", .number 1 1.0 "1")] []]

/-- A matrix around a revolution with a matrix. -/
def shearedTwice : Node := .root [.sample "multmatrix" [("_p000", shear)] [shearedRing]]

theorem emitRoot_writes_transforms_shearedTwice :
    (emitRoot (.sample false) shearedTwice).failure = none ∧ shearedTwice.Kept [0, 0] ∧
    ∃ left n' t, (emitRoot (.sample false) shearedTwice).nodes = [left] ∧
      left.at? [0, 0] = some n' ∧ n'.transform = some t ∧
      shearedRing.Transforms (.sample false) (some t) := by
  have h : (emitRoot (.sample false) shearedTwice).failure = none := by decide +kernel
  have hkept : shearedTwice.Kept [0, 0] := ⟨List.cons_ne_nil _ _, by rfl⟩
  have hturned : shearedRing.target? (.sample false) = some "rotate_extrude" := by rfl
  obtain ⟨element, e, left, -, -, -, hnodes, hwritten, -⟩ := emitRoot_writes_transforms h
  obtain ⟨t, f, _, _, n', htransforms, -, -, -, -, -, -, hn', htransform⟩ :=
    hwritten [0, 0] shearedRing hkept rfl
  cases t with
  | some t => exact ⟨h, hkept, left, n', t, hnodes, hn', htransform, htransforms⟩
  | none =>
    obtain ⟨m, -, hcombines⟩ := htransforms
    rw [Node.correction?, if_pos hturned] at hcombines
    exact nomatch hcombines

end SolidExport
