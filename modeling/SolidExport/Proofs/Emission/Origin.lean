/-
  Where each element of the output comes from.

  `place` says where each kept node stands.  Here the question is the other way round: what stands at a
  given path?  One step down a filled frame leads to something that the frame brings itself or into
  one of its operands (`Frame.at?_fill_cases`), and an operand belongs to a child that is kept.  So,
  by induction on the tree, whatever stands in the output belongs to one kept node: it is the node's
  element, the intersection or the slab of a cut projection, or a part of a block or matrix
  (`origin_of_at?`).
-/
import SolidExport.Proofs.Emission.Placement
import SolidExport.Proofs.Schema.Document

namespace SolidExport

variable {o : EmitOptions} {n : Node} {f : Frame}

/-! ## Frames -/

/-- `f.Brings es path x` — the frame `f`, filled with the elements `es`, brings the element `x`
    itself, at `path`.  A cut brings three: the whole, the intersection in it, and the slab in that.
    Parts are not counted. -/
inductive Frame.Brings (f : Frame) (es : List Element) : List Nat → Element → Prop where
  | whole : Brings f es [] (f.fill es)
  | cut (hnested : f.encoding.mount = .nested Shape.cut) :
      Brings f es f.holder (f.container.append (f.block ++ es))
  | slab (hnested : f.encoding.mount = .nested Shape.cut) :
      Brings f es (f.holder ++ [0]) Schema.slab

/-- `e.IsPart` — the element `e` is a part of a shape: a block or a matrix, or something in one. -/
def Element.IsPart (e : Element) : Prop := e.tag ∈ Schema.partTags

theorem Schema.ofParts_isPart : Schema.OfParts Element.IsPart where
  list htag _ := htag
  leaf htag _ _ _ := htag

/-- The matrix of a frame is a part, and has parts only in it. -/
theorem Frame.isPart_of_mem_block (hf : n.frame? o = some f) {b : Element} (hb : b ∈ f.block) :
    Element.Throughout Element.IsPart b :=
  (Schema.isMatrix_of_mem_block hf hb).throughout Schema.ofParts_isPart

/-- The children that an encoder put into the container are blocks, or the slab of a cut. -/
theorem Frame.lead_cases (hn : n.NoNaN) (hf : n.frame? o = some f) :
    (f.encoding.mount = .own ∧ ∀ b ∈ f.lead, Element.Throughout Element.IsPart b) ∨
    (f.encoding.mount = .nested Shape.cut ∧ f.element.children = [] ∧ f.lead = [Schema.slab]) := by
  obtain ⟨target, encoder, hplan, -, hencode⟩ := Node.frame?_eq_some hf
  have hencodes := Shape.encodes_of_encoder? (Node.plan_encode hplan).2
  rcases Shape.mount_of_ok hencodes hencode with hown | ⟨-, -, hnested, hnew⟩
  · have hlead : f.lead = f.element.children := by rw [lead, container, hown]
    have hblocks := (Schema.isBegun_of_ok hencodes hn hencode).blocks
    refine Or.inl ⟨hown, ?_⟩
    rw [hlead]
    refine hblocks.throughout Schema.ofParts_isPart fun e _ htag _ => ?_
    show e.tag ∈ Schema.partTags
    rw [htag]
    decide
  · refine Or.inr ⟨hnested, by rw [hnew]; rfl, ?_⟩
    rw [lead, container, hnested]
    rfl

/-- What stands in three lists in a row stands in one of them.  A filled frame is such a row:
    blocks, the matrix, the operands. -/
theorem getElem?_append_cases {xs ys zs : List Element} {i : Nat} {e : Element}
    (h : (xs ++ (ys ++ zs))[i]? = some e) :
    xs[i]? = some e ∨ e ∈ ys ∨ ∃ k, i = xs.length + ys.length + k ∧ zs[k]? = some e := by
  by_cases hx : i < xs.length
  · rw [List.getElem?_append_left hx] at h
    exact Or.inl h
  · rw [List.getElem?_append_right (Nat.not_lt.mp hx)] at h
    by_cases hy : i - xs.length < ys.length
    · rw [List.getElem?_append_left hy] at h
      exact Or.inr (Or.inl (List.mem_of_getElem? h))
    · rw [List.getElem?_append_right (Nat.not_lt.mp hy)] at h
      exact Or.inr (Or.inr ⟨i - xs.length - ys.length, by omega, h⟩)

theorem eq_of_getElem?_singleton {x e : Element} {i : Nat} (h : [x][i]? = some e) :
    i = 0 ∧ e = x := by
  cases i with
  | zero => exact ⟨rfl, (Option.some.inj h).symm⟩
  | succ i => exact nomatch h

/-- **One step into a filled frame.**  What stands in it is brought by the frame, is a part, or stands
    in one of the operands. -/
theorem Frame.at?_fill_cases (hn : n.NoNaN) (hf : n.frame? o = some f) {es : List Element}
    {r : List Nat} {x : Element} (hx : (f.fill es).at? r = some x) :
    f.Brings es r x ∨ x.IsPart ∨
    ∃ k q s, r = f.holder ++ (f.offset + k) :: q ∧ es[k]? = some s ∧ s.at? q = some x := by
  have hstep : ∀ i q, (f.container.append (f.block ++ es)).at? (i :: q) = some x →
      (∃ l, f.lead[i]? = some l ∧ l.at? q = some x) ∨ x.IsPart ∨
      ∃ k s, i = f.offset + k ∧ es[k]? = some s ∧ s.at? q = some x := by
    intro i q hat
    obtain ⟨c, hc, hat⟩ := Element.at?_cons_eq_some.mp hat
    rcases getElem?_append_cases hc with hlead | hblock | ⟨k, hi, hk⟩
    · exact Or.inl ⟨c, hlead, hat⟩
    · exact Or.inr (Or.inl ((isPart_of_mem_block hf hblock).at? hat))
    · exact Or.inr (Or.inr ⟨k, c, hi, hk, hat⟩)
  cases r with
  | nil =>
    injection hx with hx
    subst hx
    exact Or.inl .whole
  | cons i q =>
    rcases lead_cases hn hf with ⟨hown, hparts⟩ | ⟨hnested, hempty, hslab⟩
    · -- the element is its own container
      have hholder : f.holder = [] := by rw [holder, hown]
      have hfill : f.fill es = f.container.append (f.block ++ es) := by
        rw [fill, container, hown]
        rfl
      rw [hfill] at hx
      rcases hstep i q hx with ⟨l, hl, hat⟩ | hpart | ⟨k, s, rfl, hs, hat⟩
      · exact Or.inr (Or.inl ((hparts l (List.mem_of_getElem? hl)).at? hat))
      · exact Or.inr (Or.inl hpart)
      · exact Or.inr (Or.inr ⟨k, q, s, by rw [hholder, List.nil_append], hs, hat⟩)
    · -- the container is all there is in the element
      have hholder : f.holder = [0] := by rw [holder, hnested, hempty]; rfl
      have hchildren : (f.fill es).children = [f.container.append (f.block ++ es)] := by
        rw [fill, container, hnested]
        show f.element.children ++ _ = _
        rw [hempty]
        rfl
      obtain ⟨c, hc, hat⟩ := Element.at?_cons_eq_some.mp hx
      rw [hchildren] at hc
      obtain ⟨rfl, rfl⟩ := eq_of_getElem?_singleton hc
      cases q with
      | nil =>
        injection hat with hat
        subst hat
        rw [← hholder]
        exact Or.inl (.cut hnested)
      | cons j q =>
        rcases hstep j q hat with ⟨l, hl, hat⟩ | hpart | ⟨k, s, rfl, hs, hat⟩
        · rw [hslab] at hl
          obtain ⟨rfl, rfl⟩ := eq_of_getElem?_singleton hl
          -- there is nothing in the slab
          cases q with
          | nil =>
            injection hat with hat
            subst hat
            have hpath : [0, 0] = f.holder ++ [0] := by rw [hholder]; rfl
            rw [hpath]
            exact Or.inl (.slab hnested)
          | cons k q => cases hat
        · exact Or.inr (Or.inl hpart)
        · exact Or.inr (Or.inr ⟨k, q, s, by rw [hholder]; rfl, hs, hat⟩)

/-! ## Trees -/

/-- **Every element belongs to a kept node.**  Induction on the tree: an operand of a node is brought
    by the frame of a child, or stands in an operand of that child. -/
theorem origin_of_operand (hn : n.NoNaN) (h : (emitNodes o n.children).failure = none) {k : Nat}
    {s x : Element} {q : List Nat} (hs : (emitNodes o n.children).elements[k]? = some s)
    (hx : s.at? q = some x) (hpart : ¬x.IsPart) :
    ∃ p m f r, n.Kept p ∧ n.at? p = some m ∧ m.frame? o = some f ∧
      (emitNodes o m.children).failure = none ∧ f.Brings (emitNodes o m.children).elements r x ∧
      ∀ holder offset, holder ++ (offset + k) :: q = placeFrom o n holder offset p ++ r := by
  induction n using Node.induction generalizing k s q with
  | step n ih =>
    obtain ⟨i, c, f, hi, hgeometry, rfl, hf, hchildren, rfl⟩ := exists_child_of_getElem? h hs
    have hmem : c ∈ n.children := List.mem_of_getElem? hi
    rcases Frame.at?_fill_cases (hn.children hmem) hf hx with
      hbrings | hx | ⟨k, q, s, rfl, hs, hx⟩
    · refine ⟨[i], c, f, q, ⟨List.cons_ne_nil _ _, ?_⟩, ?_, hf, hchildren, hbrings, ?_⟩
      · exact Node.keeps_cons.mpr ⟨c, hi, hgeometry, rfl⟩
      · rw [Node.at?_cons hi]; rfl
      · intro holder offset
        rw [placeFrom_singleton, List.append_assoc, List.singleton_append]
    · exact absurd hx hpart
    · obtain ⟨p, m, g, r, hp, hm, hg, hmchildren, hbrings, hpath⟩ :=
        ih c hmem (hn.children hmem) hchildren hs hx
      refine ⟨i :: p, m, g, r, ⟨List.cons_ne_nil _ _, ?_⟩, ?_, hg, hmchildren, hbrings, ?_⟩
      · exact Node.keeps_cons.mpr ⟨c, hi, hgeometry, hp.2⟩
      · rw [Node.at?_cons hi]; exact hm
      · intro holder offset
        rw [placeFrom_cons hi hf, hpath, List.append_assoc, List.cons_append]

/-- **The origin of every element.**  What stands in the element of a root is that element, a part, or
    brought by the frame of one kept node, at the place of that node. -/
theorem origin_of_at? {root : Node} (hn : root.NoNaN)
    (h : (emitNodes o root.children).failure = none) {target : String} {path : List Nat}
    {x : Element}
    (hx : Element.at? ⟨target, [], (emitNodes o root.children).elements⟩ path = some x)
    (hpart : ¬x.IsPart) :
    (path = [] ∧ x = ⟨target, [], (emitNodes o root.children).elements⟩) ∨
    ∃ p m f r, root.Kept p ∧ root.at? p = some m ∧ m.frame? o = some f ∧
      (emitNodes o m.children).failure = none ∧ f.Brings (emitNodes o m.children).elements r x ∧
      path = place o root p ++ r := by
  cases path with
  | nil => exact Or.inl ⟨rfl, (Option.some.inj hx).symm⟩
  | cons k q =>
    obtain ⟨s, hs, hx⟩ := Element.at?_cons_eq_some.mp hx
    obtain ⟨p, m, f, r, hp, hm, hf, hchildren, hbrings, hpath⟩ := origin_of_operand hn h hs hx hpart
    have hplace := hpath [] 0
    rw [Nat.zero_add] at hplace
    exact Or.inr ⟨p, m, f, r, hp, hm, hf, hchildren, hbrings, hplace⟩

end SolidExport
