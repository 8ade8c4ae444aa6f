/-
  What an offset is written for.

  The target of a combination follows its dimension, and its operands are checked against it.  An
  offset takes its dimension from what it holds, as a combination does, but its target is flat
  whatever comes out, and nothing compares the two.  So under the standard map the offsets in a
  document are those of the kept nodes with that tag, flat or solid (`offset_at?_iff`).

  The combination around an offset goes by the dimension of the node: every operand of a combination
  belongs to a kept node of its dimension (`kept_of_operand`).  A solid combination therefore holds an
  offset as soon as one of its operands is an offset of something solid.
-/
import SolidExport.Proofs.Emission.Uniform

namespace SolidExport

/-! ## Nodes and frames -/

namespace Node

variable {n m c : Node} {i : Nat} {p : List Nat}

/-- A child of what the path `p` leads to is one step further. -/
theorem at?_snoc (hm : n.at? p = some m) (hi : m.children[i]? = some c) :
    n.at? (p ++ [i]) = some c := by
  induction p generalizing n with
  | nil =>
    injection hm with hm
    subst hm
    rw [List.nil_append, at?_cons hi]
    rfl
  | cons j p ih =>
    obtain ⟨k, hj, hk⟩ := at?_cons_eq_some.mp hm
    rw [List.cons_append, at?_cons hj]
    exact ih hk

/-- A child with geometry of a kept node is kept. -/
theorem keeps_snoc (hp : n.keeps p = true) (hm : n.at? p = some m) (hi : m.children[i]? = some c)
    (hc : c.hasGeometry = true) : n.keeps (p ++ [i]) = true := by
  induction p generalizing n with
  | nil =>
    injection hm with hm
    subst hm
    exact keeps_cons.mpr ⟨c, hi, hc, rfl⟩
  | cons j p ih =>
    obtain ⟨k, hj, hgeometry, hkeeps⟩ := keeps_cons.mp hp
    rw [at?_cons hj] at hm
    exact keeps_cons.mpr ⟨k, hj, hgeometry, ih hkeeps hm⟩

/-- A kept node below the top has geometry of some dimension. -/
theorem dimension_of_kept (hp : n.keeps p = true) (hne : p ≠ []) (hm : n.at? p = some m) :
    ∃ d, m.dimension = .ok (some d) := by
  induction p generalizing n with
  | nil => exact absurd rfl hne
  | cons i p ih =>
    obtain ⟨c, hi, hgeometry, hkeeps⟩ := keeps_cons.mp hp
    rw [at?_cons hi] at hm
    cases p with
    | nil =>
      injection hm with hm
      subst hm
      exact (hasGeometry_iff.mp hgeometry).2
    | cons j p => exact ih hkeeps (List.cons_ne_nil j p) hm

end Node

section

variable {o : EmitOptions} {n : Node} {f : Frame} {d : Dimension}

/-- The operands of a combination stand in its element itself, right behind its transformation: it
    is no cut projection, and has no blocks. -/
theorem Frame.holder_of_combination (hf : n.frame? o = some f) {es : List Element}
    (htag : (f.fill es).tag ∈ Shape.unionTags ++ Shape.binaryTags) :
    f.holder = [] ∧ f.offset = f.block.length := by
  obtain ⟨target, encoder, htarget, hencodes, hencode⟩ := Node.encodes_of_frame hf
  obtain rfl : (f.fill es).tag = target := by
    rw [tag_fill hf es] at htarget
    injection htarget
  obtain ⟨hnew, hown, -, -⟩ := Shape.combination_ok hencodes htag hencode
  have hlead : f.lead = [] := by
    rw [lead, container, hown]
    dsimp only
    rw [hnew]
    rfl
  exact ⟨by rw [holder, hown], by rw [offset, hlead, List.length_nil, Nat.zero_add]⟩

/-- Under the standard map an offset is written for a node with that tag, and for no other. -/
theorem TagMap.offset_of_standard :
    ∀ t ∈ standardTargets d, (t.2 = "offset2d" ↔ t.1 = "offset") := by
  cases d <;> decide

theorem Frame.offset_fill_iff (hstandard : o.tagMap = .standard) (hf : n.frame? o = some f)
    (es : List Element) : (f.fill es).tag = "offset2d" ↔ n.tag = "offset" := by
  obtain ⟨d, -, hmem⟩ := Frame.tag_fill_standard hstandard hf es
  exact TagMap.offset_of_standard _ hmem

/-! ## Trees -/

variable {root : Node} {path : List Nat} {b : Element}

/-- A kept node with the tag `offset` stands in its place in the document as a flat offset, whatever
    its operands are. -/
theorem offset_at?_place (d : Dimension) (hstandard : o.tagMap = .standard)
    (hchildren : (emitNodes o root.children).failure = none) {p : List Nat} (hp : root.Kept p)
    (hn : root.at? p = some n) (htag : n.tag = "offset") :
    ∃ b, Element.at? ⟨unionTag d, [], (emitNodes o root.children).elements⟩ (place o root p)
      = some b ∧ b.tag = "offset2d" := by
  obtain ⟨m, f, hm, hf, -, hat⟩ := at?_place (unionTag d) hchildren hp
  rw [hn] at hm
  injection hm with hm
  subst hm
  exact ⟨_, hat, (Frame.offset_fill_iff hstandard hf _).mpr htag⟩

/-- **The offsets in a tree are those of the kept nodes with that tag**, each in the place of its
    node. -/
theorem offset_at?_iff (hstandard : o.tagMap = .standard) (hn : root.NoNaN)
    (hchildren : (emitNodes o root.children).failure = none)
    (hb : Element.at? ⟨unionTag d, [], (emitNodes o root.children).elements⟩ path = some b) :
    b.tag = "offset2d" ↔
      ∃ p n, root.Kept p ∧ root.at? p = some n ∧ path = place o root p ∧ n.tag = "offset" := by
  constructor
  · intro htag
    have hpart : ¬b.IsPart := by
      show b.tag ∉ Schema.partTags
      rw [htag]
      decide
    rcases origin_of_at? hn hchildren hb hpart with
      ⟨-, rfl⟩ | ⟨p, m, f, r, hp, hm, hf, -, hbrings, hpath⟩
    · have hunion : unionTag d ≠ "offset2d" := by cases d <;> decide
      exact absurd htag hunion
    · cases hbrings with
      | whole =>
        rw [List.append_nil] at hpath
        exact ⟨p, m, hp, hm, hpath, (Frame.offset_fill_iff hstandard hf _).mp htag⟩
      | cut hnested =>
        exact absurd ((f.tag_cut hnested _).symm.trans htag) (by decide)
      | slab _ => exact absurd htag (by decide)
  · rintro ⟨p, n, hp, hn, rfl, htag⟩
    obtain ⟨b', hb', hoffset⟩ := offset_at?_place d hstandard hchildren hp hn htag
    rw [hb] at hb'
    injection hb' with hb'
    subst hb'
    exact hoffset

/-- A child that an operand is written for has the dimension of its node, if the children agree. -/
theorem exists_child_of_operand {target : String}
    (h : (emitNodes o n.children).failure = none) (hd : n.dimension = .ok (some d))
    (hgenerator : Dimension.ofGenerator? n.tag = none)
    (huniform : Shape.checkUniform n target = .ok ()) {k : Nat} {s : Element}
    (hs : (emitNodes o n.children).elements[k]? = some s) :
    ∃ i c, n.children[i]? = some c ∧ c.hasGeometry = true ∧ Node.rank n.children i = k ∧
      c.dimension = .ok (some d) := by
  obtain ⟨i, c, g, hi, hgeometry, hrank, -, -, -⟩ := exists_child_of_getElem? h hs
  obtain ⟨hdummy, d', hd'⟩ := Node.hasGeometry_iff.mp hgeometry
  obtain rfl : d' = d :=
    Node.dimension_of_uniform hd hgenerator huniform (List.mem_of_getElem? hi) hdummy hd'
  exact ⟨i, c, hi, hgeometry, hrank, hd'⟩

/-- **Every operand of a combination belongs to a kept node of its dimension**, the intersections of
    cut projections apart. -/
theorem kept_of_operand (hstandard : o.tagMap = .standard) (hn : root.NoNaN)
    (hroot : Dimension.ofGenerator? root.tag = none) (h : (emitRoot o root).failure = none)
    (hd : root.dimension = .ok (some d)) (hchildren : (emitNodes o root.children).failure = none)
    (hb : Element.at? ⟨unionTag d, [], (emitNodes o root.children).elements⟩ path = some b)
    {d' : Dimension} (htag : b.tag ∈ combinationTags d') {k : Nat} {c : Element}
    (hc : b.children[k]? = some c) (hoperand : c.tag ≠ "tmatrix") :
    (∃ p n, root.Kept p ∧ root.at? p = some n ∧ n.tag = "projection" ∧ n.flag "cut" = .ok true ∧
      path = place o root p ++ [0] ∧ b.tag = "intersection3d") ∨
    ∃ p n, root.Kept p ∧ root.at? p = some n ∧ path ++ [k] = place o root p ∧
      n.dimension = .ok (some d') := by
  have hpart : ¬b.IsPart := by
    have hdisjoint : ∀ t ∈ combinationTags d', t ∉ Schema.partTags := by cases d' <;> decide
    exact hdisjoint b.tag htag
  rcases origin_of_at? hn hchildren hb hpart with
    ⟨rfl, rfl⟩ | ⟨p, m, f, r, hp, hm, hf, hmchildren, hbrings, hpath⟩
  · -- an operand of the union of everything is an outermost node
    have hunion : unionTag d ∈ combinationTags d := by cases d <;> decide
    obtain rfl : d' = d := combinationTags_unique htag hunion
    have huniform := checkUniform_of_emitRoot h hd
    obtain ⟨i, a, hi, hgeometry, hrank, ha⟩ :=
      exists_child_of_operand hchildren hd hroot huniform hc
    refine Or.inr ⟨[i], a, ⟨List.cons_ne_nil i [], Node.keeps_cons.mpr ⟨a, hi, hgeometry, rfl⟩⟩,
      Node.at?_cons hi [], ?_, ha⟩
    rw [place, placeFrom_singleton, hrank, Nat.zero_add]
  · cases hbrings with
    | whole =>
      have hcombination : ∀ t ∈ combinationTags d', t ∈ Shape.unionTags ++ Shape.binaryTags := by
        cases d' <;> decide
      obtain ⟨hfill, huniform, -⟩ := Frame.children_fill hf (hcombination _ htag)
      obtain ⟨hholder, hoffset⟩ := Frame.holder_of_combination hf (hcombination _ htag)
      obtain ⟨d'', hd'', htarget⟩ :=
        Frame.tag_fill_standard hstandard hf (emitNodes o m.children).elements
      obtain ⟨rfl, hgenerator⟩ := TagMap.combination_of_standard _ htarget d' htag
      -- behind the transformation stand the operands, in the order of the children
      rw [hfill] at hc
      by_cases hk : k < f.block.length
      · rw [List.getElem?_append_left hk] at hc
        exact absurd (Frame.tag_of_mem_block (List.mem_of_getElem? hc)) hoperand
      · rw [List.getElem?_append_right (Nat.not_lt.mp hk)] at hc
        obtain ⟨i, a, hi, hgeometry, hrank, ha⟩ :=
          exists_child_of_operand hmchildren hd'' hgenerator huniform hc
        refine Or.inr ⟨p ++ [i], a, ⟨by simp, Node.keeps_snoc hp.2 hm hi hgeometry⟩,
          Node.at?_snoc hm hi, ?_, ha⟩
        rw [hpath, place, placeFrom_append hchildren hp hm hf i, hholder, hoffset, hrank,
          List.append_nil, List.nil_append]
        have hindex : f.block.length + (k - f.block.length) = k := by omega
        rw [hindex]
    | cut hnested =>
      obtain ⟨hprojection, hcut, hholder⟩ := projection_of_nested hstandard hf hnested
      exact Or.inl ⟨p, m, hp, hm, hprojection, hcut, by rw [hpath, hholder], f.tag_cut hnested _⟩
    | slab _ =>
      have hslab : Schema.slab.tag ∉ combinationTags d' := by cases d' <;> decide
      exact absurd htag hslab

end

/-! ## Documents -/

/-- **What an offset is written for.**  In every document that is made with the standard map, the
    offsets are exactly the elements of the kept nodes with that tag, whatever their dimension.  So
    all of them belong to flat nodes exactly if no kept node with that tag is solid.  The node of an
    offset that is an operand of a combination has the dimension of the combination, unless that is
    the intersection in a cut projection. -/
theorem ofText_offsets {o : ConvertOptions} {text : String} {output : Output}
    (hstandard : o.tagMap = .standard) (h : (Conversion.ofText o text).result = .ok output) :
    ∃ (statements : List Statement) (root : Node) (union : Element) (e : List Nat → List Nat),
      (Statement.scan text).result = .ok statements ∧ Node.ofStatements statements = .ok root ∧
      output.document = ⟨"xcsg", [("version", .text "1.0")], [union]⟩ ∧
      IsPlacement o.emit root union e ∧
      (∀ path b, union.at? path = some b → (b.tag = "offset2d" ↔
        ∃ p n, root.Kept p ∧ root.at? p = some n ∧ path = e p ∧ n.tag = "offset")) ∧
      ((∀ path b, union.at? path = some b → b.tag = "offset2d" →
          ∃ p n, root.Kept p ∧ root.at? p = some n ∧ path = e p ∧
            n.dimension = .ok (some .flat)) ↔
        ∀ p n, root.Kept p → root.at? p = some n → n.tag = "offset" →
          n.dimension ≠ .ok (some .solid)) ∧
      ∀ path b d k c, union.at? path = some b → b.tag ∈ combinationTags d →
        b.children[k]? = some c → c.tag = "offset2d" →
        (∃ p n, root.Kept p ∧ root.at? p = some n ∧ n.tag = "projection" ∧
          n.flag "cut" = .ok true ∧ path = e p ++ [0] ∧ b.tag = "intersection3d") ∨
        ∃ p n, root.Kept p ∧ root.at? p = some n ∧ path ++ [k] = e p ∧ n.tag = "offset" ∧
          n.dimension = .ok (some d) := by
  obtain ⟨statements, root, hscan, hroot, hemit, hdocument, -⟩ := Conversion.ofText_ok h
  obtain ⟨d, hd, hchildren, helements, -⟩ := emitRoot_ok hemit
  rw [helements] at hdocument
  have hn := Node.ofStatements_noNaN hroot
  have hplacement : IsPlacement o.emit root ⟨unionTag d, [], (emitNodes o.emit root.children).elements⟩
      (place o.emit root) := place_isPlacement hchildren
  refine ⟨statements, root, _, place o.emit root, hscan, hroot, hdocument, hplacement,
    fun path b hb => offset_at?_iff hstandard hn hchildren hb, ⟨?_, ?_⟩, ?_⟩
  · intro hflat p n hp hpn htag
    obtain ⟨b, hb, hoffset⟩ := offset_at?_place d hstandard hchildren hp hpn htag
    obtain ⟨q, m, hq, hqm, hsame, hm⟩ := hflat _ b hb hoffset
    obtain rfl : p = q := hplacement.injective p q hp hq hsame
    rw [hpn] at hqm
    injection hqm with hqm
    subst hqm
    rw [hm]
    simp
  · intro hnone path b hb htag
    obtain ⟨p, n, hp, hpn, hpath, hoffset⟩ := (offset_at?_iff hstandard hn hchildren hb).mp htag
    obtain ⟨d', hd'⟩ := Node.dimension_of_kept hp.2 hp.1 hpn
    refine ⟨p, n, hp, hpn, hpath, ?_⟩
    cases d' with
    | flat => exact hd'
    | solid => exact absurd hd' (hnone p n hp hpn hoffset)
  · intro path b d' k c hb hcombination hc htag
    have hoperand : c.tag ≠ "tmatrix" := by
      rw [htag]
      decide
    rcases kept_of_operand hstandard hn (Node.ofGenerator?_of_ofStatements hroot) hemit hd hchildren
      hb hcombination hc hoperand with hcut | ⟨p, n, hp, hpn, hpath, hn'⟩
    · exact Or.inl hcut
    · have hplace : Element.at? ⟨unionTag d, [], (emitNodes o.emit root.children).elements⟩
          (path ++ [k]) = some c := by
        rw [Element.at?_append, hb]
        show (b.children[k]?).bind (·.at? []) = some c
        rw [hc]
        rfl
      obtain ⟨q, m, hq, hqm, hsame, hoffset⟩ :=
        (offset_at?_iff hstandard hn hchildren hplace).mp htag
      obtain rfl : p = q := hplacement.injective p q hp hq (hpath.symm.trans hsame)
      rw [hpn] at hqm
      injection hqm with hqm
      subst hqm
      exact Or.inr ⟨p, n, hp, hpn, hpath, hoffset, hn'⟩

/-- A union of an offset of a cube. -/
def solidOffsetText : String := "union()\x7boffset(r=1)\x7bcube(size=1);\x7d\x7d"

/-- The offset of a cube is written as a flat offset inside a solid union, and the text is converted
    without a fault. -/
theorem ofText_offsets_solidOffset :
    ∃ (output : Output) (union b c : Element) (path : List Nat) (k : Nat),
      (Conversion.ofText (.standard .rounded) solidOffsetText).result = .ok output ∧
      output.document = ⟨"xcsg", [("version", .text "1.0")], [union]⟩ ∧
      union.at? path = some b ∧ b.tag = "union3d" ∧ b.children[k]? = some c ∧ c.tag = "offset2d" ∧
      ∃ statements root p n, (Statement.scan solidOffsetText).result = .ok statements ∧
        Node.ofStatements statements = .ok root ∧ root.Kept p ∧ root.at? p = some n ∧
        n.tag = "offset" ∧ n.dimension = .ok (some .solid) := by
  have hsucceeds : (Conversion.ofText (.standard .rounded) solidOffsetText).result.toOption.map
      (fun output => output.document.children.map fun union =>
        (union.at? [0]).map fun b => (b.tag, b.children.map (·.tag)))
      = some [some ("union3d", ["offset2d"])] := by
    decide +kernel
  cases h : (Conversion.ofText (.standard .rounded) solidOffsetText).result with
  | error f => rw [h] at hsucceeds; exact nomatch hsucceeds
  | ok output =>
    obtain ⟨statements, root, union, e, hscan, hroot, hdocument, -, -, -, hoperands⟩ :=
      ofText_offsets rfl h
    rw [h] at hsucceeds
    have hview : output.document.children.map (fun union =>
        (union.at? [0]).map fun b => (b.tag, b.children.map (·.tag)))
        = [some ("union3d", ["offset2d"])] := Option.some.inj hsucceeds
    rw [hdocument] at hview
    obtain ⟨b, hb, hshape⟩ := Option.map_eq_some_iff.mp (List.head_eq_of_cons_eq hview)
    obtain ⟨htag, hchildren⟩ := Prod.mk.inj hshape
    obtain ⟨c, hc, hoffset⟩ : ∃ c, b.children[0]? = some c ∧ c.tag = "offset2d" := by
      have hfirst := congrArg (fun tags : List String => tags[0]?) hchildren
      rw [List.getElem?_map] at hfirst
      exact Option.map_eq_some_iff.mp hfirst
    have hsolid : b.tag ∈ combinationTags .solid := by
      rw [htag]
      decide
    refine ⟨output, union, b, c, [0], 0, rfl, hdocument, hb, htag, hc, hoffset, statements, root, ?_⟩
    rcases hoperands [0] b .solid 0 c hb hsolid hc hoffset with
      ⟨_, _, _, _, _, _, _, hcut⟩ | ⟨p, n, hp, hn, -, hoffsetNode, hdimension⟩
    · rw [htag] at hcut
      exact absurd hcut (by decide)
    · exact ⟨p, n, hscan, hroot, hp, hn, hoffsetNode, hdimension⟩

end SolidExport
