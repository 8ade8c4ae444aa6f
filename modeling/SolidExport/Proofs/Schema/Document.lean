/-
  Every document that a conversion gives conforms to the schema, whatever the text and the tag map.

  A node that is written fills a frame that its encoder began as the schema asks (`isBegun_of_ok`), so
  by induction on the tree every element is a shape (`isShape_of_emitNode`).  That all numbers are
  finite is known once the document was written as text.
-/
import SolidExport.Proofs.Conversion
import SolidExport.Proofs.Element.Markup
import SolidExport.Proofs.Emission.Correspondence
import SolidExport.Proofs.Matrix.Cells
import SolidExport.Proofs.Schema.Encoder
import SolidExport.Proofs.Schema.Parts

namespace SolidExport.Schema

open Element (Throughout FiniteHere)
open Shape (Encodes)

/-! ## Matrices -/

theorem isLeaf_cellRow {m : Matrix} (h : m.IsFull) (i : Nat) :
    IsLeaf "trow" [("c0", .finite), ("c1", .finite), ("c2", .finite), ("c3", .finite)]
      (m.cellRow i) :=
  ⟨rfl, .cons ⟨rfl, h.isFinite_element i 0⟩ (.cons ⟨rfl, h.isFinite_element i 1⟩
    (.cons ⟨rfl, h.isFinite_element i 2⟩ (.cons ⟨rfl, h.isFinite_element i 3⟩ .nil))), rfl⟩

/-- A full matrix is written as the schema asks: four rows of four finite numbers. -/
theorem isMatrix_matrixBlock {m : Matrix} (h : m.IsFull) : IsMatrix (matrixBlock m) := by
  rw [Matrix.matrixBlock_eq h.1]
  refine ⟨⟨rfl, rfl, Nat.le_refl 4, ?_⟩, rfl⟩
  intro c hc
  have hrow : ∃ i, c = m.cellRow i := by
    rcases List.mem_cons.mp hc with rfl | hc
    · exact ⟨0, rfl⟩
    · rcases List.mem_cons.mp hc with rfl | hc
      · exact ⟨1, rfl⟩
      · rcases List.mem_cons.mp hc with rfl | hc
        · exact ⟨2, rfl⟩
        · exact ⟨3, List.mem_singleton.mp hc⟩
  obtain ⟨i, rfl⟩ := hrow
  exact isLeaf_cellRow h i

/-! ## Frames -/

/-- The correction of an encoder, if it has one, is the matrix of a revolution. -/
theorem corrective_full {trig : Trig} {target : String} {encoder : Node → Draft Encoding} {n : Node}
    {e e' : Element} {encoding : Encoding} (hencodes : Encodes target encoder)
    (h : encoder n e = .ok encoding e') :
    encoding.corrective = none ∨ encoding.corrective = some Shape.revolutionCorrection := by
  rw [Shape.corrective_of_ok hencodes h]
  split
  · exact Or.inr rfl
  · exact Or.inl rfl

/-- The transformation of a node that is written is a matrix of the schema, be it given, corrective
    or both. -/
theorem isMatrix_of_mem_block {o : EmitOptions} {n : Node} {f : Frame} (hf : n.frame? o = some f)
    {b : Element} (hb : b ∈ f.block) : IsMatrix b := by
  obtain ⟨target, encoder, hplan, hexplicit, hencode⟩ := Node.frame?_eq_some hf
  have hencodes := Shape.encodes_of_encoder? (Node.plan_encode hplan).2
  have hfull : ∀ m, f.explicit = some m → m.IsFull := by
    intro m hm
    rw [hm] at hexplicit
    exact Node.explicitTransform_ok hexplicit
  obtain ⟨m, hm, rfl⟩ := List.mem_map.mp hb
  refine isMatrix_matrixBlock ?_
  have htransform : f.transform = some m := Option.mem_toList.mp hm
  unfold Frame.transform at htransform
  rcases corrective_full hencodes hencode with hnone | hsome
  · rw [hnone] at htransform
    exact hfull m htransform
  · rw [hsome] at htransform
    cases hx : f.explicit with
    | none =>
      rw [hx] at htransform
      injection htransform with htransform
      subst htransform
      exact Shape.isFull_revolutionCorrection
    | some m' =>
      rw [hx] at htransform
      injection htransform with htransform
      subst htransform
      exact Shape.movesRows_revolutionCorrection.isFull_mul (hfull m' hx)

/-- The slab that a cut projection intersects its operands with: ten thousand wide, and next to
    nothing thick. -/
def slab : Element :=
  ⟨"cuboid", [("dx", .number 1e4), ("dy", .number 1e4), ("dz", .number 1e-4),
    ("center", .boolean true)], []⟩

theorem conforms_slab : Conforms (fields "cuboid") slab.attributes := by
  have hwide : (1e4 : Float).isFinite = true ∧ 0.0 < (1e4 : Float) := by decide
  have hthin : (1e-4 : Float).isFinite = true ∧ 0.0 < (1e-4 : Float) := by decide
  exact .cons ⟨rfl, hwide⟩ (.cons ⟨rfl, hwide⟩ (.cons ⟨rfl, hthin⟩ (.cons ⟨rfl, trivial⟩ .nil)))

/-- A frame that is filled with shapes is a shape, the intersection of a cut projection included. -/
theorem isShape_fill {o : EmitOptions} {n : Node} {f : Frame} (hn : n.NoNaN)
    (hf : n.frame? o = some f) {operands : List Element} (hoperands : ∀ s ∈ operands, IsShape s) :
    IsShape (f.fill operands) := by
  obtain ⟨target, encoder, hplan, -, hencode⟩ := Node.frame?_eq_some hf
  have hencodes := Shape.encodes_of_encoder? (Node.plan_encode hplan).2
  have hbegun := isBegun_of_ok hencodes hn hencode
  have hmatrix : ∀ m ∈ f.block, IsMatrix m := fun m hm => isMatrix_of_mem_block hf hm
  rcases Shape.mount_of_ok hencodes hencode with hown | ⟨rfl, -, hnested, hnew⟩
  · have hfill : f.fill operands
        = ⟨f.element.tag, f.element.attributes, f.element.children ++ (f.block ++ operands)⟩ := by
      rw [Frame.fill, hown]
      rfl
    rw [hfill, hbegun.tag_eq]
    exact .own (mem_shapeTags hencodes) hbegun.attributes hbegun.radius hbegun.blocks
      f.length_block_le hmatrix hoperands
  · have hfill : f.fill operands
        = ⟨"projection2d", [], [⟨"intersection3d", [], slab :: (f.block ++ operands)⟩]⟩ := by
      rw [Frame.fill, hnested, hnew]
      rfl
    rw [hfill]
    exact .cut ⟨rfl, rfl, conforms_slab⟩ f.length_block_le hmatrix hoperands

/-- **Everything that a node is written as is a shape.**  By induction on the tree. -/
theorem isShape_of_emitNode {o : EmitOptions} {n : Node} (hn : n.NoNaN)
    (h : (emitNode o n).failure = none) : ∀ e ∈ (emitNode o n).elements, IsShape e := by
  induction n using Node.induction with
  | step n ih =>
    rcases emitNode_ok h with ⟨-, he⟩ | ⟨-, -, -, he⟩ | ⟨d, f, -, -, hf, hchildren, he, -⟩
    · rw [he]
      exact fun e hmem => absurd hmem List.not_mem_nil
    · rw [he]
      exact fun e hmem => absurd hmem List.not_mem_nil
    · obtain ⟨hall, helements, -⟩ := emitNodes_ok hchildren
      have hoperands : ∀ s ∈ (emitNodes o n.children).elements, IsShape s := by
        intro s hs
        rw [helements] at hs
        obtain ⟨c, hc, hs⟩ := List.mem_flatMap.mp hs
        exact ih c hc (hn.children hc) (hall c hc) s hs
      intro e hmem
      rw [he] at hmem
      rw [List.mem_singleton.mp hmem]
      exact isShape_fill hn hf hoperands

/-! ## Everything in a shape -/

/-- `IsKnown e` — the element `e` has a tag of the schema and no text in its attributes.  Its values
    are then numbers and truth values, which need no escapes. -/
def IsKnown (e : Element) : Prop :=
  e.tag ∈ shapeTags ++ partTags ∧ ∀ a ∈ e.attributes, ∀ text, a.2 ≠ .text text

theorem Conforms.not_text {fields : List (String × Field)} {attributes : List (String × Attribute)}
    (h : Conforms fields attributes) : ∀ a ∈ attributes, ∀ text, a.2 ≠ .text text := by
  induction h with
  | nil => exact fun a ha => absurd ha List.not_mem_nil
  | @cons f a _ _ hfa _ ih =>
    intro a' ha' text htext
    rcases List.mem_cons.mp ha' with rfl | ha'
    · obtain ⟨name, field⟩ := f
      rw [htext] at hfa
      cases field <;> exact hfa.2
    · exact ih a' ha' text htext

theorem ofParts_isKnown : OfParts IsKnown where
  list := by
    intro e htag hnone
    refine ⟨List.mem_append_right _ htag, ?_⟩
    rw [hnone]
    exact fun a ha => absurd ha List.not_mem_nil
  leaf htag hattributes _ _ := ⟨List.mem_append_right _ htag, hattributes.not_text⟩

/-- All that stands in a shape has tags of the schema and no text among its values. -/
theorem IsShape.isKnown {e : Element} (h : IsShape e) : Throughout IsKnown e := by
  refine h.throughout ofParts_isKnown (fun e htag hattributes => ⟨?_, hattributes.not_text⟩)
    fun e htag hattributes => ⟨List.mem_append_left _ htag, hattributes.not_text⟩
  rw [htag]
  decide

/-! ## Documents -/

/-- The union that a root is written as is a shape. -/
theorem isShape_of_emitRoot {o : EmitOptions} {root : Node} {d : Dimension} (hn : root.NoNaN)
    (h : (emitNodes o root.children).failure = none) :
    IsShape ⟨unionTag d, [], (emitNodes o root.children).elements⟩ := by
  obtain ⟨hall, helements, -⟩ := emitNodes_ok h
  have hshapes : ∀ s ∈ (emitNodes o root.children).elements, IsShape s := by
    intro s hs
    rw [helements] at hs
    obtain ⟨c, hc, hs⟩ := List.mem_flatMap.mp hs
    exact isShape_of_emitNode (hn.children hc) (hall c hc) s hs
  have hbegun : IsBegun (unionTag d) (.new (unionTag d)) := by
    cases d with
    | flat => exact isBegun_bare (by decide)
    | solid => exact isBegun_bare (by decide)
  have htag : unionTag d ∈ shapeTags := by cases d <;> decide
  exact @IsShape.own (unionTag d) [] [] [] _ htag hbegun.attributes hbegun.radius hbegun.blocks
    (Nat.zero_le 1) (fun m hm => absurd hm List.not_mem_nil) hshapes

/-- **Every document conforms to the schema.**  Under the version stands one union, which is a shape
    of the schema.  All elements below the document have tags of the schema, and all their values
    are truth values and finite numbers. -/
theorem ofText_conforms {o : ConvertOptions} {text : String} {output : Output}
    (h : (Conversion.ofText o text).result = .ok output) :
    ∃ union, output.document = ⟨"xcsg", [("version", .text "1.0")], [union]⟩ ∧
      (union.tag = "union2d" ∨ union.tag = "union3d") ∧ IsShape union ∧
      ∀ p e, p ≠ [] → output.document.at? p = some e → e.tag ∈ shapeTags ++ partTags ∧
        ∀ a ∈ e.attributes, (∀ text, a.2 ≠ .text text) ∧
          ∀ x, a.2 = .number x → x.isFinite = true := by
  obtain ⟨statements, root, -, hroot, hemit, hdocument, hmarkup⟩ := Conversion.ofText_ok h
  obtain ⟨d, -, hchildren, helements, -⟩ := emitRoot_ok hemit
  have hshape := isShape_of_emitRoot (d := d) (Node.ofStatements_noNaN hroot) hchildren
  have hfinite := Element.markup_ok hmarkup
  rw [helements] at hdocument
  refine ⟨_, hdocument, ?_, hshape, ?_⟩
  · cases d with
    | flat => exact Or.inl rfl
    | solid => exact Or.inr rfl
  · intro p e hp he
    rw [hdocument] at he hfinite
    cases p with
    | nil => exact absurd rfl hp
    | cons i p =>
      cases i with
      | succ i => exact nomatch he
      | zero =>
        obtain ⟨htag, htext⟩ := hshape.isKnown.at? he
        have hnumbers := (hfinite.inside _ List.mem_cons_self).at? he
        refine ⟨htag, fun a ha => ⟨htext a ha, ?_⟩⟩
        intro x hx
        have hvalue := hnumbers a ha
        rw [hx] at hvalue
        exact hvalue

/-- A revolution of a cut sphere. -/
def revolvedCutText : String := "rotate_extrude()\x7bprojection(cut=true)\x7bsphere(d=2);\x7d\x7d"

theorem ofText_conforms_revolvedCut :
    ∃ output, (Conversion.ofText (.standard .rounded) revolvedCutText).result = .ok output ∧
      ∃ union, output.document = ⟨"xcsg", [("version", .text "1.0")], [union]⟩ ∧ IsShape union := by
  have hsucceeds : (Conversion.ofText (.standard .rounded) revolvedCutText).result.isOk = true := by
    decide +kernel
  cases h : (Conversion.ofText (.standard .rounded) revolvedCutText).result with
  | error f => rw [h] at hsucceeds; exact nomatch hsucceeds
  | ok output =>
    obtain ⟨union, hdocument, -, hshape, -⟩ := ofText_conforms h
    exact ⟨output, rfl, union, hdocument, hshape⟩

end SolidExport.Schema
