/-
  How many operands a difference, an intersection or a sum is written with.

  These need two operands.  That is checked before the operands are written, on the children that are
  no dummies.  A child without geometry counts there, but where such nodes are dropped nothing is
  written for it.  So of the children that are counted, exactly the dropped ones are missing among the
  operands (`operands_of_binary`): two are there for certain only where nothing is dropped.
-/
import SolidExport.Proofs.Emission.Correspondence
import SolidExport.Proofs.Emission.Target

namespace SolidExport

/-- `e.operands` — the operands in the element `e`: all that stands in it but a transformation. -/
def Element.operands (e : Element) : List Element := e.children.filter (·.tag != "tmatrix")

variable {o : EmitOptions}

/-! ## Counting children -/

/-- Where nothing fails, a child that is no dummy has geometry or is an empty shape, and never
    both. -/
theorem countP_geometry_add_empty {ns : List Node} (h : ∀ c ∈ ns, (emitNode o c).failure = none) :
    ns.countP Node.hasGeometry + ns.countP Node.isEmptyShape = ns.countP (!·.isDummy) := by
  induction ns with
  | nil => rfl
  | cons c cs ih =>
    have hrest := ih fun m hm => h m (List.mem_cons_of_mem _ hm)
    have hone : (if c.hasGeometry then 1 else 0) + (if c.isEmptyShape then 1 else 0)
        = if !c.isDummy then 1 else 0 := by
      unfold Node.hasGeometry Node.isEmptyShape
      rcases emitNode_ok (h c List.mem_cons_self) with
        ⟨hdummy, -⟩ | ⟨hdummy, hd, -⟩ | ⟨d, f, hdummy, hd, -⟩
      · rw [hdummy]; rfl
      · rw [hdummy, hd]; rfl
      · rw [hdummy, hd]; rfl
    rw [List.countP_cons, List.countP_cons, List.countP_cons]
    omega

/-- Where nodes without geometry are refused, there is none among those that are written. -/
theorem countP_empty_of_refusing {ns : List Node} (hskip : o.skipEmpty = false)
    (h : ∀ c ∈ ns, (emitNode o c).failure = none) : ns.countP Node.isEmptyShape = 0 := by
  refine List.countP_eq_zero.mpr fun c hc => ?_
  intro hempty
  obtain ⟨hdummy, hnone⟩ := Node.isEmptyShape_iff.mp hempty
  rcases emitNode_ok (h c hc) with ⟨hdummy', -⟩ | ⟨-, -, hskip', -⟩ | ⟨d, f, -, hd, -⟩
  · rw [hdummy] at hdummy'; exact nomatch hdummy'
  · rw [hskip] at hskip'; exact nomatch hskip'
  · rw [hnone] at hd; exact nomatch hd

/-! ## One combination -/

section

variable {n : Node} {f : Frame}

/-- The operands of a combination are what the children of its node are written as, and nothing
    else. -/
theorem operands_fill (hf : n.frame? o = some f) (h : (emitNodes o n.children).failure = none)
    (htag : (f.fill (emitNodes o n.children).elements).tag ∈ Shape.unionTags ++ Shape.binaryTags) :
    (f.fill (emitNodes o n.children).elements).operands = (emitNodes o n.children).elements := by
  have hblock : f.block.filter (·.tag != "tmatrix") = [] := by
    refine List.filter_eq_nil_iff.mpr fun b hb => ?_
    rw [Frame.tag_of_mem_block hb]
    decide
  have helements : (emitNodes o n.children).elements.filter (·.tag != "tmatrix")
      = (emitNodes o n.children).elements := by
    refine List.filter_eq_self.mpr fun s hs => ?_
    obtain ⟨c, g, -, -, hg, rfl⟩ := exists_child_of_mem_elements h hs
    have hshape : ∀ t ∈ Schema.shapeTags, (t != "tmatrix") = true := by decide
    exact hshape _ (Frame.tag_fill_mem hg _)
  rw [Element.operands, (Frame.children_fill hf htag).1, List.filter_append, hblock, helements,
    List.nil_append]

/-- **The operands of a combination and its dropped children** are together its children that are no
    dummies. -/
theorem length_operands_add_dropped (hf : n.frame? o = some f)
    (h : (emitNodes o n.children).failure = none)
    (htag : (f.fill (emitNodes o n.children).elements).tag ∈ Shape.unionTags ++ Shape.binaryTags) :
    (f.fill (emitNodes o n.children).elements).operands.length
      + n.children.countP Node.isEmptyShape = n.countChildren := by
  have hlength : (emitNodes o n.children).elements.length = n.children.countP Node.hasGeometry := by
    rw [length_elements h, Node.length_keptChildren, Node.rank, List.take_length]
  rw [operands_fill hf h htag, hlength, countP_geometry_add_empty (emitNodes_ok h).1,
    Node.countChildren, List.countP_eq_length_filter]

end

/-! ## Trees -/

/-- **How many operands are written.**  Where a kept node is written as a difference, intersection or
    sum, at least two of its children are no dummies, and of these exactly the ones without geometry
    are missing among its operands.  So there are two operands if no node is dropped. -/
theorem operands_of_binary {root : Node} (h : (emitRoot o root).failure = none) :
    ∃ (element : Element) (e : List Nat → List Nat), (emitRoot o root).elements = [element] ∧
      IsPlacement o root element e ∧
      ∀ p n, root.Kept p → root.at? p = some n → ∃ b, element.at? (e p) = some b ∧
        n.target? o = some b.tag ∧
        (b.tag ∈ Shape.binaryTags →
          2 ≤ n.countChildren ∧
          b.operands.length + n.children.countP Node.isEmptyShape = n.countChildren ∧
          (o.skipEmpty = false → 2 ≤ b.operands.length)) := by
  obtain ⟨d, -, hchildren, helements, -⟩ := emitRoot_ok h
  refine ⟨_, place o root, helements, place_isPlacement hchildren, fun p n hp hn => ?_⟩
  obtain ⟨m, f, hm, hf, hmchildren, hat⟩ := at?_place (unionTag d) hchildren hp
  rw [hn] at hm
  injection hm with hm
  subst hm
  refine ⟨_, hat, Frame.tag_fill hf _, fun htag => ?_⟩
  have hcombination := List.mem_append_right Shape.unionTags htag
  have hcount := (Frame.children_fill hf hcombination).2.2 htag
  have hadd := length_operands_add_dropped hf hmchildren hcombination
  refine ⟨hcount, hadd, fun hskip => ?_⟩
  have hnone := countP_empty_of_refusing hskip (emitNodes_ok hmchildren).1
  omega

/-- A difference of a cube and a shape without geometry. -/
def loneDifference : Node :=
  .root [.sample "difference" []
    [.sample "cube" [("size", .number 1 1.0 "1")] [], .sample "color" [] []]]

/-- Where empty shapes are dropped, a difference can be left with one operand: the shape was counted
    as long as it was there. -/
theorem operands_of_binary_loneDifference :
    (emitRoot (.sample true) loneDifference).failure = none ∧
    ∃ element path b, (emitRoot (.sample true) loneDifference).elements = [element] ∧
      element.at? path = some b ∧ b.tag = "difference3d" ∧ b.operands.length = 1 := by
  have h : (emitRoot (.sample true) loneDifference).failure = none := by decide +kernel
  obtain ⟨element, e, helements, -, hall⟩ := operands_of_binary h
  obtain ⟨b, hb, htarget, hbinary⟩ := hall [0] _ ⟨by decide, by decide⟩ rfl
  have htag : b.tag = "difference3d" := (Option.some.inj htarget).symm
  obtain ⟨-, hadd, -⟩ := hbinary (by rw [htag]; decide)
  exact ⟨h, element, e [0], b, helements, hb, htag, Nat.succ.inj hadd⟩

end SolidExport
