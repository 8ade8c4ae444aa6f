/-
  Under the standard map no combination mixes dimensions.

  Four parts of the program have to agree for this: the dimension that is found for a node, the check
  of its operands, the target of each operand, and the target of the node itself.  An operand with
  geometry has the dimension of the node that combines it (`dimension_of_uniform`), and what a node
  of a dimension is written as has that dimension (`TagMap.operand_of_standard`).  So the children of
  one combination fit (`fits_of_mem_fill`), and so do those of the root (`fits_of_mem_elements`).

  Which elements are combinations of the source, and which one a cut projection brings along, is known
  from the origin of every element (`origin_of_at?`).
-/
import SolidExport.Proofs.Emission.Origin
import SolidExport.Proofs.Emission.Target
import SolidExport.Proofs.Node.Dimension
import SolidExport.Proofs.TagMap

namespace SolidExport

/-- `e.Fits d` — the element `e` may stand in a combination of dimension `d`: it is a
    transformation, an offset, or a shape of that dimension.  An offset is let through in either,
    since its own operands are not asked for their dimension. -/
def Element.Fits (d : Dimension) (e : Element) : Prop :=
  e.tag = "tmatrix" ∨ e.tag = "offset2d" ∨ e.tag ∈ operandTags d

section

variable {o : EmitOptions} {n : Node} {f : Frame} {d : Dimension}

/-! ## Targets of nodes -/

/-- Under the standard map a node with a frame has a dimension, and its target goes with its tag
    there. -/
theorem Frame.tag_fill_standard (hstandard : o.tagMap = .standard) (hf : n.frame? o = some f)
    (es : List Element) :
    ∃ d, n.dimension = .ok (some d) ∧ (n.tag, (f.fill es).tag) ∈ TagMap.standardTargets d := by
  have htarget := tag_fill hf es
  obtain ⟨target, encoder, hplan, -, -⟩ := Node.frame?_eq_some hf
  rw [Node.target?, hplan] at htarget
  injection htarget with htarget
  obtain ⟨template, hfind, havailable, hdrop | ⟨d, resolved, encoder', hd, hresolved, -, hencode⟩⟩ :=
    Node.plan_ok hplan
  · cases hdrop.2.2
  · injection hencode with hresult
    rw [hstandard] at hfind
    refine ⟨d, hd, TagMap.mem_standardTargets hfind havailable ?_ hresolved ?_⟩
    · intro d' hgenerator
      rw [Node.dimension_of_generator hgenerator] at hd
      injection hd with hd
      exact Option.some.inj hd
    · rw [← htarget, hresult, Node.targetOf]
      split
      · exact Or.inr rfl
      · exact Or.inl rfl

/-! ## One combination -/

/-- **What agreeing children are written as fits.**  A child with geometry has the dimension of the
    node, and so has its target. -/
theorem fits_of_mem_elements (hstandard : o.tagMap = .standard) {target : String}
    (h : (emitNodes o n.children).failure = none) (hd : n.dimension = .ok (some d))
    (hgenerator : Dimension.ofGenerator? n.tag = none)
    (huniform : Shape.checkUniform n target = .ok ()) {s : Element}
    (hs : s ∈ (emitNodes o n.children).elements) : s.Fits d := by
  obtain ⟨c, g, hc, hgeometry, hg, rfl⟩ := exists_child_of_mem_elements h hs
  obtain ⟨d', hd', htarget⟩ := Frame.tag_fill_standard hstandard hg (emitNodes o c.children).elements
  have hdummy : c.isDummy = false := (Node.hasGeometry_iff.mp hgeometry).1
  obtain rfl : d' = d := Node.dimension_of_uniform hd hgenerator huniform hc hdummy hd'
  exact Or.inr (TagMap.operand_of_standard _ htarget)

/-- The children of a combination of dimension `d` fit, if it is written for a node under the
    standard map. -/
theorem fits_of_mem_fill (hstandard : o.tagMap = .standard) (hf : n.frame? o = some f)
    (h : (emitNodes o n.children).failure = none)
    (htag : (f.fill (emitNodes o n.children).elements).tag ∈ combinationTags d) {c : Element}
    (hc : c ∈ (f.fill (emitNodes o n.children).elements).children) : c.Fits d := by
  have hcombination : ∀ t ∈ combinationTags d, t ∈ Shape.unionTags ++ Shape.binaryTags := by
    cases d <;> decide
  obtain ⟨hchildren, huniform, -⟩ := Frame.children_fill hf (hcombination _ htag)
  obtain ⟨d', hd, htarget⟩ := Frame.tag_fill_standard hstandard hf (emitNodes o n.children).elements
  obtain ⟨rfl, hgenerator⟩ := TagMap.combination_of_standard _ htarget d htag
  rw [hchildren] at hc
  rcases List.mem_append.mp hc with hblock | hs
  · exact Or.inl (Frame.tag_of_mem_block hblock)
  · exact fits_of_mem_elements hstandard h hd hgenerator huniform hs

/-! ## Trees -/

/-- A cut projection is written for a node that is a projection and asks for a cut. -/
theorem projection_of_nested (hstandard : o.tagMap = .standard) (hf : n.frame? o = some f)
    (hnested : f.encoding.mount = .nested Shape.cut) :
    n.tag = "projection" ∧ n.flag "cut" = .ok true ∧ f.holder = [0] := by
  obtain ⟨target, encoder, htarget, hencodes, hencode⟩ := Node.encodes_of_frame hf
  rcases Shape.mount_of_ok hencodes hencode with hown | ⟨rfl, hcut, -, hnew⟩
  · rw [hnested] at hown
    exact nomatch hown
  · obtain ⟨d, -, hmem⟩ := Frame.tag_fill_standard hstandard hf []
    rw [Frame.tag_fill hf [], Option.some.injEq] at htarget
    refine ⟨TagMap.projection_of_standard _ hmem htarget, hcut, ?_⟩
    rw [Frame.holder, hnested, hnew]
    rfl

theorem Frame.tag_cut (f : Frame) (hnested : f.encoding.mount = .nested Shape.cut)
    (es : List Element) : (f.container.append es).tag = "intersection3d" := by
  show f.container.tag = _
  rw [container, hnested]
  rfl

/-- **No combination in a tree mixes dimensions**, the intersections of cut projections apart. -/
theorem fits_of_at? (hstandard : o.tagMap = .standard) {root : Node} (hn : root.NoNaN)
    (hroot : Dimension.ofGenerator? root.tag = none) (h : (emitRoot o root).failure = none)
    (hd : root.dimension = .ok (some d)) (hchildren : (emitNodes o root.children).failure = none)
    {path : List Nat} {b : Element} {d' : Dimension}
    (hb : Element.at? ⟨unionTag d, [], (emitNodes o root.children).elements⟩ path = some b)
    (htag : b.tag ∈ combinationTags d') :
    (∃ p n, root.Kept p ∧ root.at? p = some n ∧ n.tag = "projection" ∧ n.flag "cut" = .ok true ∧
      path = place o root p ++ [0] ∧ b.tag = "intersection3d") ∨
    ∀ c ∈ b.children, c.Fits d' := by
  have hpart : ¬b.IsPart := by
    have hdisjoint : ∀ t ∈ combinationTags d', t ∉ Schema.partTags := by cases d' <;> decide
    exact hdisjoint b.tag htag
  rcases origin_of_at? hn hchildren hb hpart with
    ⟨-, rfl⟩ | ⟨p, m, f, r, hp, hm, hf, hmchildren, hbrings, hpath⟩
  · -- the union of everything
    have hunion : unionTag d ∈ combinationTags d := by cases d <;> decide
    obtain rfl : d' = d := combinationTags_unique htag hunion
    have huniform := checkUniform_of_emitRoot h hd
    exact Or.inr fun c hc => fits_of_mem_elements hstandard hchildren hd hroot huniform hc
  · cases hbrings with
    | whole => exact Or.inr fun c hc => fits_of_mem_fill hstandard hf hmchildren htag hc
    | cut hnested =>
      obtain ⟨hprojection, hcut, hholder⟩ := projection_of_nested hstandard hf hnested
      exact Or.inl ⟨p, m, hp, hm, hprojection, hcut, by rw [hpath, hholder], f.tag_cut hnested _⟩
    | slab hnested =>
      have hslab : Schema.slab.tag ∉ combinationTags d' := by cases d' <;> decide
      exact absurd htag hslab

end

/-! ## Documents -/

/-- The root of a text makes no geometry of its own, so it has that of its trees. -/
theorem Node.ofGenerator?_of_ofStatements {statements : List Statement} {root : Node}
    (h : Node.ofStatements statements = .ok root) : Dimension.ofGenerator? root.tag = none := by
  obtain ⟨ns, rfl⟩ := exists_root_of_ofStatements h
  show Dimension.ofGenerator? rootTag = none
  decide

/-- **No combination mixes dimensions.**  In every document that is made with the standard map, the
    children of each union, hull, difference, intersection and sum of dimension `d` are
    transformations, offsets and shapes of dimension `d`.  The one exception is the intersection that
    stands in the element of a cut projection. -/
theorem ofText_fits {o : ConvertOptions} {text : String} {output : Output}
    (hstandard : o.tagMap = .standard) (h : (Conversion.ofText o text).result = .ok output) :
    ∃ (statements : List Statement) (root : Node) (union : Element) (e : List Nat → List Nat),
      (Statement.scan text).result = .ok statements ∧ Node.ofStatements statements = .ok root ∧
      output.document = ⟨"xcsg", [("version", .text "1.0")], [union]⟩ ∧
      IsPlacement o.emit root union e ∧
      ∀ path b d, union.at? path = some b → b.tag ∈ combinationTags d →
        (∃ p n, root.Kept p ∧ root.at? p = some n ∧ n.tag = "projection" ∧
          n.flag "cut" = .ok true ∧ path = e p ++ [0] ∧ b.tag = "intersection3d") ∨
        ∀ c ∈ b.children, c.Fits d := by
  obtain ⟨statements, root, hscan, hroot, hemit, hdocument, -⟩ := Conversion.ofText_ok h
  obtain ⟨d, hd, hchildren, helements, -⟩ := emitRoot_ok hemit
  rw [helements] at hdocument
  refine ⟨statements, root, _, place o.emit root, hscan, hroot, hdocument,
    place_isPlacement hchildren, ?_⟩
  intro path b d' hb htag
  exact fits_of_at? hstandard (Node.ofStatements_noNaN hroot)
    (Node.ofGenerator?_of_ofStatements hroot) hemit hd hchildren hb htag

/-- A union of a cut sphere and a disk. -/
def cutAndDiskText : String :=
  "union()\x7bprojection(cut=true)\x7bsphere(r=1);\x7dcircle(r=1);\x7d"

theorem ofText_fits_cutAndDisk :
    ∃ output union, (Conversion.ofText (.standard .rounded) cutAndDiskText).result = .ok output ∧
      output.document = ⟨"xcsg", [("version", .text "1.0")], [union]⟩ ∧
      union.tag = "union2d" ∧ ∀ c ∈ union.children, c.Fits .flat := by
  have hsucceeds : (Conversion.ofText (.standard .rounded) cutAndDiskText).result.toOption.map
      (fun output => output.document.children.map (·.tag)) = some ["union2d"] := by
    decide +kernel
  cases h : (Conversion.ofText (.standard .rounded) cutAndDiskText).result with
  | error f => rw [h] at hsucceeds; exact nomatch hsucceeds
  | ok output =>
    obtain ⟨_, _, union, _, -, -, hdocument, -, hfits⟩ := ofText_fits rfl h
    rw [h] at hsucceeds
    have htag : union.tag = "union2d" := by
      have htags : output.document.children.map (·.tag) = ["union2d"] := Option.some.inj hsucceeds
      rw [hdocument] at htags
      exact List.head_eq_of_cons_eq htags
    refine ⟨output, union, rfl, hdocument, htag, ?_⟩
    rcases hfits [] union .flat rfl (by rw [htag]; decide) with hcut | hall
    · obtain ⟨_, _, _, _, _, _, _, hcut⟩ := hcut
      rw [htag] at hcut
      exact absurd hcut (by decide)
    · exact hall

end SolidExport
