/-
  What writing a node does, said once.

  A node that is written has a `Frame`: the element that its encoder leaves behind, where the rest
  goes, and the matrix that the node is given.  Filling the frame with the elements of the node's
  children gives the element of the node.

  `emitNode_ok` lists the three ways in which writing one node succeeds: a dummy is passed over, a
  node without geometry is dropped with a warning, any other node fills its frame.  `emitNodes_ok`
  says that writing some nodes in a row is writing each of them.  Every later statement about a
  whole tree is an induction on these two.
-/
import SolidExport.Emission

namespace SolidExport

/-- The element of a written node without its operands: all that the node itself adds to the
    document.  What it is filled with comes from its children. -/
structure Frame where
  /-- What the encoder leaves behind. -/
  element : Element
  encoding : Encoding
  /-- The matrix that the node is given. -/
  explicit : Option Matrix

namespace Frame

/-- `f.transform` — the transformation of the node: the matrix that it is given, and then the
    correction of its encoder. -/
def transform (f : Frame) : Option Matrix := Matrix.compose f.encoding.corrective f.explicit

/-- `f.block` — the transformation as an element in a list, which is empty where there is no
    transformation. -/
def block (f : Frame) : List Element := f.transform.toList.map matrixBlock

/-- `f.container` — the element that the operands go into, before they do: the node's own or, for a
    cut projection, the intersection inside it. -/
def container (f : Frame) : Element :=
  match f.encoding.mount with
  | .own => f.element
  | .nested inner => inner

/-- `f.lead` — the children that the encoder put in front of the transformation and the operands. -/
def lead (f : Frame) : List Element := f.container.children

/-- `f.holder` — the path from the element of the node to the one that its operands go into. -/
def holder (f : Frame) : List Nat :=
  match f.encoding.mount with
  | .own => []
  | .nested _ => [f.element.children.length]

/-- `f.fill operands` — the finished element of the node, with its transformation in front of the
    operands. -/
def fill (f : Frame) (operands : List Element) : Element :=
  f.encoding.mount.close f.element (f.block ++ operands)

/-- A node has one transformation at most, so its block is one element or none. -/
theorem length_block_le (f : Frame) : f.block.length ≤ 1 := by
  unfold block
  cases f.transform with
  | none => exact Nat.zero_le 1
  | some m => exact Nat.le_refl 1

/-- The transformation of a node is written under a tag of its own, which no operand has. -/
theorem tag_of_mem_block {f : Frame} {b : Element} (h : b ∈ f.block) : b.tag = "tmatrix" := by
  unfold block at h
  obtain ⟨m, -, rfl⟩ := List.mem_map.mp h
  rfl

/-- The container of a filled frame stands where `holder` says, and holds what the encoder put
    there, the transformation, and the operands. -/
theorem at?_fill_holder (f : Frame) (es : List Element) :
    (f.fill es).at? f.holder = some (f.container.append (f.block ++ es)) := by
  unfold fill holder container Mount.close
  cases f.encoding.mount with
  | own => rfl
  | nested inner =>
    show ((f.element.children ++ [inner.append (f.block ++ es)])[f.element.children.length]?).bind
      (·.at? []) = _
    rw [List.getElem?_append_right (Nat.le_refl _), Nat.sub_self]
    rfl

end Frame

/-! ## The plan of a node -/

namespace Node

/-- `n.targetOf resolved` — the target of the node `n`, whose template gives `resolved` for its
    dimension: with one operand it may be another one, since there is no difference or intersection
    of one. -/
def targetOf (n : Node) (resolved : String) : String :=
  if n.countChildren = 1 then loneOperandTarget resolved else resolved

/-- Every template resolves once the dimension is known. -/
theorem exists_resolve (template : String) (d : Dimension) :
    ∃ resolved, Template.resolve? template (some d) = some resolved := by
  unfold Template.resolve?
  split
  · exact ⟨_, rfl⟩
  · exact ⟨_, rfl⟩

/-- A node without geometry is only let pass if it was asked to drop such nodes, and it is then
    dropped. -/
theorem planEmpty_ok {o : EmitOptions} {n : Node} {template : String} {p : Plan}
    (h : n.planEmpty o template = .ok p) : o.skipEmpty = true ∧ p = .drop := by
  unfold planEmpty at h
  split at h
  · rename_i hskip
    injection h with h
    exact ⟨hskip, h.symm⟩
  · exact nomatch h

/-- **All that a plan can be.**  The tag has an entry that can be converted, and either the node has
    no geometry and is dropped, which was asked for, or its target has an encoder. -/
theorem plan_ok {o : EmitOptions} {n : Node} {p : Plan} (h : n.plan o = .ok p) :
    ∃ template, o.tagMap.find? n.tag = some template ∧ template ≠ Template.notAvailable ∧
      ((n.dimension = .ok none ∧ o.skipEmpty = true ∧ p = .drop) ∨
      ∃ d resolved encoder, n.dimension = .ok (some d) ∧
        Template.resolve? template (some d) = some resolved ∧
        @Shape.encoder? o.trig (n.targetOf resolved) = some encoder ∧
        p = .encode (n.targetOf resolved) encoder) := by
  unfold plan at h
  cases ht : o.tagMap.find? n.tag with
  | none => rw [ht] at h; cases h
  | some template =>
    rw [ht] at h
    cases hd : n.dimension with
    | error f => rw [hd] at h; cases h
    | ok dimension =>
      rw [hd] at h
      by_cases hna : template = Template.notAvailable
      · change (if template = Template.notAvailable then _ else _ : Except Fault Plan) = _ at h
        rw [if_pos hna] at h
        cases h
      · refine ⟨template, rfl, hna, ?_⟩
        change (if template = Template.notAvailable then _ else _ : Except Fault Plan) = _ at h
        rw [if_neg hna] at h
        cases dimension with
        | none =>
          obtain ⟨hskip, hp⟩ := planEmpty_ok h
          exact Or.inl ⟨rfl, hskip, hp⟩
        | some d =>
          obtain ⟨resolved, hr⟩ := exists_resolve template d
          have htarget : (if n.countChildren = 1 then loneOperandTarget resolved else resolved) =
              n.targetOf resolved := rfl
          simp only [hr, htarget] at h
          cases he : @Shape.encoder? o.trig (n.targetOf resolved) with
          | none => rw [he] at h; cases h
          | some encoder =>
            rw [he] at h
            injection h with h
            exact Or.inr ⟨d, resolved, encoder, rfl, hr, he, h.symm⟩

/-- A node that is to be encoded has geometry of some dimension, and its target has that encoder. -/
theorem plan_encode {o : EmitOptions} {n : Node} {target : String}
    {encoder : Node → Draft Encoding} (h : n.plan o = .ok (.encode target encoder)) :
    (∃ d, n.dimension = .ok (some d)) ∧ @Shape.encoder? o.trig target = some encoder := by
  obtain ⟨template, -, -, hdrop | ⟨d, resolved, encoder', hd, -, he, hp⟩⟩ := plan_ok h
  · exact nomatch hdrop.2.2
  · injection hp with ht he'
    subst ht he'
    exact ⟨⟨d, hd⟩, he⟩

/-! ## The frame of a node -/

/-- `n.frame? o` — the frame of the node `n` under the options `o`, if it is encoded and nothing
    fails. -/
def frame? (o : EmitOptions) (n : Node) : Option Frame :=
  match n.plan o with
  | .ok (.encode target encoder) =>
    match n.explicitTransform, encoder n (.new target) with
    | .ok explicit, .ok encoding element => some ⟨element, encoding, explicit⟩
    | _, _ => none
  | _ => none

/-- Where the parts of a frame come from: the plan, the matrix among the parameters, and what the
    encoder writes. -/
theorem frame?_eq_some {o : EmitOptions} {n : Node} {f : Frame} (h : n.frame? o = some f) :
    ∃ target encoder, n.plan o = .ok (.encode target encoder) ∧
      n.explicitTransform = .ok f.explicit ∧
      encoder n (.new target) = .ok f.encoding f.element := by
  unfold frame? at h
  split at h
  · rename_i target encoder hp
    split at h
    · rename_i explicit encoding element hx he
      injection h with h
      subst h
      exact ⟨target, encoder, hp, hx, he⟩
    · exact nomatch h
  · exact nomatch h

end Node

/-! ## One node -/

/-- A dummy is written as nothing, and nothing below it is looked at. -/
theorem emitNode_dummy (o : EmitOptions) {n : Node} (h : n.isDummy = true) :
    emitNode o n = .silent [n] := by
  obtain ⟨head, transform, children⟩ := n
  rw [emitNode, if_pos h]

/-- What writing a node does that is no dummy, with every way to fail.  The other equations of
    `emitNode` are cases of this one. -/
theorem emitNode_of_not_dummy {o : EmitOptions} {n : Node} (h : n.isDummy = false) :
    emitNode o n = match n.plan o with
      | .error f => .refused n (.fault f)
      | .ok .drop => ⟨[n], [], [.emptyShape n.line n.tag], none⟩
      | .ok (.encode target encoder) =>
        match n.explicitTransform with
        | .error f => .refused n (.fault (f.locate n.location))
        | .ok explicit =>
          match encoder n (.new target) with
          | .error f element => ⟨[n], [element], [], some (f.locate n.location)⟩
          | .ok encoding element =>
            finishNode n element encoding explicit (emitNodes o n.children) := by
  obtain ⟨head, transform, children⟩ := n
  rw [emitNode]
  exact if_neg (by rw [h]; exact Bool.false_ne_true)

/-- A node that is dropped leaves a warning behind and no element. -/
theorem emitNode_drop {o : EmitOptions} {n : Node} (h : n.isDummy = false)
    (hp : n.plan o = .ok .drop) :
    emitNode o n = ⟨[n], [], [.emptyShape n.line n.tag], none⟩ := by
  rw [emitNode_of_not_dummy h]
  simp only [hp]

/-- A node with a frame fills it with what its children give, and fails only if they do. -/
theorem emitNode_frame {o : EmitOptions} {n : Node} {f : Frame} (h : n.isDummy = false)
    (hf : n.frame? o = some f) :
    emitNode o n = finishNode n f.element f.encoding f.explicit (emitNodes o n.children) := by
  obtain ⟨target, encoder, hp, hx, he⟩ := Node.frame?_eq_some hf
  rw [emitNode_of_not_dummy h]
  simp only [hp, hx, he]

/-- A node that is neither a dummy nor dropped and has no frame fails.  So where nothing fails,
    there are frames. -/
theorem emitNode_failure_of_no_frame {o : EmitOptions} {n : Node} (h : n.isDummy = false)
    (hp : n.plan o ≠ .ok .drop) (hf : n.frame? o = none) : (emitNode o n).failure ≠ none := by
  rw [emitNode_of_not_dummy h]
  unfold Node.frame? at hf
  split
  · simp [Emission.refused]
  · rename_i hd; exact absurd hd hp
  · rename_i target encoder hpl
    rw [hpl] at hf
    split
    · simp [Emission.refused]
    · rename_i explicit hx
      split
      · simp
      · rename_i encoding element he
        simp only [hx, he] at hf
        exact nomatch hf

/-- **The step lemma.**  Writing a node that succeeds passes over a dummy, drops a node without
    geometry, or fills the frame of the node with what its children give. -/
theorem emitNode_ok {o : EmitOptions} {n : Node} (h : (emitNode o n).failure = none) :
    (n.isDummy = true ∧ emitNode o n = .silent [n]) ∨
    (n.isDummy = false ∧ n.dimension = .ok none ∧ o.skipEmpty = true ∧
      emitNode o n = ⟨[n], [], [.emptyShape n.line n.tag], none⟩) ∨
    (∃ d f, n.isDummy = false ∧ n.dimension = .ok (some d) ∧ n.frame? o = some f ∧
      (emitNodes o n.children).failure = none ∧
      (emitNode o n).elements = [f.fill (emitNodes o n.children).elements] ∧
      (emitNode o n).warnings = (emitNodes o n.children).warnings) := by
  cases hdummy : n.isDummy with
  | true => exact Or.inl ⟨rfl, emitNode_dummy o hdummy⟩
  | false =>
    refine Or.inr ?_
    cases hf : n.frame? o with
    | some f =>
      obtain ⟨target, encoder, hp, -, -⟩ := Node.frame?_eq_some hf
      obtain ⟨⟨d, hd⟩, -⟩ := Node.plan_encode hp
      rw [emitNode_frame hdummy hf] at h ⊢
      exact Or.inr ⟨d, f, rfl, hd, rfl, h, rfl, rfl⟩
    | none =>
      by_cases hp : n.plan o = .ok .drop
      · obtain ⟨template, -, -, hdrop | ⟨d, resolved, encoder, -, -, -, hne⟩⟩ := Node.plan_ok hp
        · exact Or.inl ⟨rfl, hdrop.1, hdrop.2.1, emitNode_drop hdummy hp⟩
        · exact nomatch hne
      · exact absurd h (emitNode_failure_of_no_frame hdummy hp hf)

/-! ## Some nodes in a row -/

/-- **The run lemma.**  Writing some nodes in a row succeeds only if each does, and gives the
    elements and the warnings of each in order. -/
theorem emitNodes_ok {o : EmitOptions} {ns : List Node} (h : (emitNodes o ns).failure = none) :
    (∀ n ∈ ns, (emitNode o n).failure = none) ∧
    (emitNodes o ns).elements = ns.flatMap (fun n => (emitNode o n).elements) ∧
    (emitNodes o ns).warnings = ns.flatMap (fun n => (emitNode o n).warnings) := by
  induction ns with
  | nil => exact ⟨fun n hn => absurd hn List.not_mem_nil, rfl, rfl⟩
  | cons n ns ih =>
    rw [emitNodes] at h ⊢
    cases hf : (emitNode o n).failure with
    | some f => simp only [hf] at h; exact nomatch h
    | none =>
      simp only [hf] at h ⊢
      obtain ⟨hall, hel, hw⟩ := ih h
      refine ⟨?_, ?_, ?_⟩
      · intro m hm
        rcases List.mem_cons.mp hm with rfl | hm
        · exact hf
        · exact hall m hm
      · rw [List.flatMap_cons, ← hel]
        rfl
      · rw [List.flatMap_cons, ← hw]
        rfl

/-- Some nodes in a row are written without a failure if each of them is. -/
theorem emitNodes_of_each {o : EmitOptions} {ns : List Node}
    (h : ∀ n ∈ ns, (emitNode o n).failure = none) : (emitNodes o ns).failure = none := by
  induction ns with
  | nil => rfl
  | cons n ns ih =>
    rw [emitNodes, h n List.mem_cons_self]
    exact ih fun m hm => h m (List.mem_cons_of_mem n hm)

end SolidExport
