/-
  Programs in a row.

  Two texts with a line end between them are read as the two trees side by side, the second further
  down (`Statement.scan_concat`, `Node.ofStatements_concat`).  Lines do not matter for what a tree is
  written as, and neither do the siblings of a node (`emitNodes_append`).  What both have in common
  is the root: its dimension is that of the first text, and its operands agree if the two texts do
  (`Node.Agree.append`).
-/
import SolidExport.Proofs.Conversion
import SolidExport.Proofs.Element.Markup
import SolidExport.Proofs.Emission.Correspondence
import SolidExport.Proofs.Line.Emission

namespace SolidExport

/-! ## Dimensions -/

namespace Node

/-- `Agree ns d` — the nodes `ns` have the dimension `d` in common, and one of them has it. -/
structure Agree (ns : List Node) (d : Dimension) : Prop where
  first : firstDimension ns = .ok (some d)
  second : Shape.secondDimension none ns = .ok none

variable {ns ms : List Node} {d e : Dimension} {k : Nat}

/-- A root has the dimension of the first of its trees that has one. -/
theorem dimension_root (ns : List Node) : (root ns).dimension = firstDimension ns := by
  have hsupported : ¬Dimension.isUnsupported rootTag = true := by decide
  have hgenerator : Dimension.ofGenerator? rootTag = none := by decide
  rw [dimension_eq, ownDimension]
  show ((if Dimension.isUnsupported rootTag = true then _
    else .ok (Dimension.ofGenerator? rootTag)) >>= _) = firstDimension ns
  rw [if_neg hsupported, hgenerator]
  rfl

theorem Agree.raise (h : Agree ns d) : Agree (ns.map (raise k)) d where
  first := keeps_firstDimension (fun c _ => c.keeps_dimension) _ h.first
  second := keeps_secondDimension none ns _ h.second

/-- **Nodes that agree, in a row.**  The search finds the dimension of the first ones, and a second
one if the others have it. -/
theorem Agree.append (h : Agree ns d) (hmore : Agree ms e) :
    firstDimension (ns ++ ms) = .ok (some d) ∧
      Shape.secondDimension none (ns ++ ms) = .ok (if d = e then none else some (d, e)) := by
  constructor
  · rw [firstDimension_append, h.first]
    rfl
  · -- the first nodes leave their dimension as seen, and the others are compared with it
    obtain ⟨next, hrun, -, hall⟩ := secondDimension_append h.second
    obtain ⟨c, hc, hdummy, hd⟩ := firstDimension_some h.first
    obtain ⟨c', hc', hdummy', hd'⟩ := firstDimension_some hmore.first
    rw [hrun ms, hall c hc hdummy d hd]
    exact secondDimension_of_seen hmore.second hc' hdummy' hd'

end Node

/-! ## Emissions -/

variable {o : EmitOptions} {ns ms : List Node} {d e : Dimension}

/-- The trees that are written as a root agree in their dimension, each of them is written, and the
    root is their union. -/
theorem emitRoot_root_ok (h : (emitRoot o (.root ns)).failure = none) :
    ∃ d, Node.Agree ns d ∧ (emitNodes o ns).failure = none ∧
      (emitRoot o (.root ns)).elements = [⟨unionTag d, [], (emitNodes o ns).elements⟩] := by
  obtain ⟨d, hd, hfailure, helements, -⟩ := emitRoot_ok h
  have hsecond : Shape.secondDimension none ns = .ok none :=
    Node.secondDimension_of_uniform (checkUniform_of_emitRoot h hd)
  exact ⟨d, ⟨(Node.dimension_root ns).symm.trans hd, hsecond⟩, hfailure, helements⟩

/-- Nodes in a row that are written, and others behind them, are written in one row: what stands
    before a node does not matter for it. -/
theorem emitNodes_append (h : (emitNodes o ns).failure = none)
    (hmore : (emitNodes o ms).failure = none) :
    (emitNodes o (ns ++ ms)).failure = none ∧
      (emitNodes o (ns ++ ms)).elements = (emitNodes o ns).elements ++ (emitNodes o ms).elements := by
  obtain ⟨heach, helements, -⟩ := emitNodes_ok h
  obtain ⟨heachMore, helementsMore, -⟩ := emitNodes_ok hmore
  have hboth : (emitNodes o (ns ++ ms)).failure = none := by
    refine emitNodes_of_each fun n hn => ?_
    rcases List.mem_append.mp hn with hn | hn
    · exact heach n hn
    · exact heachMore n hn
  refine ⟨hboth, ?_⟩
  rw [(emitNodes_ok hboth).2.1, List.flatMap_append, helements, helementsMore]

/-- **Trees of one dimension, in a row**, are written as one union of what the two parts give. -/
theorem emitRoot_append (h : Node.Agree ns d) (hmore : Node.Agree ms d)
    (hns : (emitNodes o ns).failure = none) (hms : (emitNodes o ms).failure = none) :
    (emitRoot o (.root (ns ++ ms))).failure = none ∧
      (emitRoot o (.root (ns ++ ms))).elements
        = [⟨unionTag d, [], (emitNodes o ns).elements ++ (emitNodes o ms).elements⟩] := by
  obtain ⟨hfirst, hsecond⟩ := h.append hmore
  obtain ⟨hfailure, helements⟩ := emitNodes_append hns hms
  rw [if_pos rfl] at hsecond
  have huniform : Shape.checkUniform (.root (ns ++ ms)) (unionTag d) = .ok () := by
    unfold Shape.checkUniform
    show (Shape.secondDimension none (ns ++ ms) >>= _) = _
    rw [hsecond]
    rfl
  have htarget : rootTarget (.root (ns ++ ms)) = .ok (unionTag d) :=
    rootTarget_of_uniform ((Node.dimension_root _).trans hfirst) huniform
  unfold emitRoot
  rw [htarget]
  refine ⟨hfailure, ?_⟩
  show [(⟨unionTag d, [], (emitNodes o (ns ++ ms)).elements⟩ : Element)] = _
  rw [helements]

/-- **Trees of different dimensions, in a row**, are refused at the root, which stands on no
    line. -/
theorem emitRoot_append_mixed (h : Node.Agree ns d) (hmore : Node.Agree ms e) (hne : d ≠ e) :
    (emitRoot o (.root (ns ++ ms))).failure
      = some (.fault (.located ⟨0, "root", "root()"⟩
          (.mixedDimensions "root" (unionTag d) [d.toNat, e.toNat]))) := by
  obtain ⟨hfirst, hsecond⟩ := h.append hmore
  rw [if_neg hne] at hsecond
  have hmixed : Shape.checkUniform (.root (ns ++ ms)) (unionTag d)
      = .error (.located ⟨0, "root", "root()"⟩
          (.mixedDimensions "root" (unionTag d) [d.toNat, e.toNat])) := by
    unfold Shape.checkUniform
    show (Shape.secondDimension none (ns ++ ms) >>= _) = _
    rw [hsecond]
    rfl
  have htarget := rootTarget_of_dimension ((Node.dimension_root _).trans hfirst)
  rw [hmixed] at htarget
  unfold emitRoot
  rw [htarget]
  rfl

/-! ## Documents -/

theorem unionTag_injective (h : unionTag d = unionTag e) : d = e := by
  cases d with
  | flat =>
    cases e with
    | flat => rfl
    | solid => exact absurd h (by decide)
  | solid =>
    cases e with
    | flat => exact absurd h (by decide)
    | solid => rfl

/-- A document of one union, with the shapes of two such documents that can be written, can be
    written. -/
theorem Element.markup_append {precision : Float} {indent tag xml xml' : String}
    {as bs : List Element}
    (has : (emptyDocument.append [⟨tag, [], as⟩]).markup precision indent = .ok xml)
    (hbs : (emptyDocument.append [⟨tag, [], bs⟩]).markup precision indent = .ok xml') :
    ∃ xml'', (emptyDocument.append [⟨tag, [], as ++ bs⟩]).markup precision indent = .ok xml'' := by
  have hfirst := markup_ok_iff_writable.mp ⟨xml, has⟩
  have hsecond := markup_ok_iff_writable.mp ⟨xml', hbs⟩
  refine markup_ok_iff_writable.mpr (.mk hfirst.here fun c hc => ?_)
  obtain rfl : c = ⟨tag, [], as ++ bs⟩ := List.mem_singleton.mp hc
  refine .mk (fun a ha => absurd ha List.not_mem_nil) fun b hb => ?_
  rcases List.mem_append.mp hb with hb | hb
  · exact (hfirst.inside ⟨tag, [], as⟩ List.mem_cons_self).inside b hb
  · exact (hsecond.inside ⟨tag, [], bs⟩ List.mem_cons_self).inside b hb

namespace Conversion

/-- A text that is converted is some trees that agree, and its document is the union of what they are
written as. -/
theorem ofText_trees {o : ConvertOptions} {text : String} {output : Output}
    (h : (ofText o text).result = .ok output) :
    ∃ statements ns d, (Statement.scan text).result = .ok statements ∧
      Node.ofStatements statements = .ok (.root ns) ∧ Node.Agree ns d ∧
      (emitNodes o.emit ns).failure = none ∧
      output.document = emptyDocument.append [⟨unionTag d, [], (emitNodes o.emit ns).elements⟩] ∧
      output.document.markup o.precision Element.defaultIndent = .ok output.xml := by
  obtain ⟨statements, root, hscan, hroot, hemit, hdocument, hxml⟩ := ofText_ok h
  obtain ⟨ns, rfl⟩ := Node.exists_root_of_ofStatements hroot
  obtain ⟨d, hagree, hwritten, helements⟩ := emitRoot_root_ok hemit
  rw [helements] at hdocument
  exact ⟨statements, ns, d, hscan, hroot, hagree, hwritten, hdocument, hxml⟩

/-- **Programs in a row.**  Two texts that are converted each by itself, with a line end between them,
are converted to one document with the shapes of the first and then those of the second, if their
unions have the same tag.  Otherwise they are refused at the root. -/
theorem ofText_concat {o : ConvertOptions} {front back : String} {first second : Output}
    (hfront : (ofText o front).result = .ok first) (hback : (ofText o back).result = .ok second) :
    ∃ u v : Element,
      first.document = ⟨"xcsg", [("version", .text "1.0")], [u]⟩ ∧
      second.document = ⟨"xcsg", [("version", .text "1.0")], [v]⟩ ∧
      (u.tag = v.tag → ∃ output, (ofText o (front ++ "\n" ++ back)).result = .ok output ∧
        output.document = ⟨"xcsg", [("version", .text "1.0")],
          [⟨u.tag, [], u.children ++ v.children⟩]⟩) ∧
      (u.tag ≠ v.tag → ∃ f, (ofText o (front ++ "\n" ++ back)).result = .error (.fault f) ∧
        f.cause.code = .shapeUnsupported ∧ f.location = some ⟨0, "root", "root()"⟩) := by
  obtain ⟨ss, ns, d, hscan, hroot, hagree, hwritten, hdocument, hxml⟩ := ofText_trees hfront
  obtain ⟨ss', ms, e, hscan', hroot', hagree', hwritten', hdocument', hxml'⟩ := ofText_trees hback
  -- the trees of the second text stand behind those of the first, `k` lines further down
  obtain ⟨k, hconcat⟩ := Statement.scan_concat hscan
  have hscanned : (Statement.scan (front ++ "\n" ++ back)).result
      = .ok (ss ++ ss'.map (·.raise k)) := by
    rw [hconcat back, hscan']
  have hresult : (ofText o (front ++ "\n" ++ back)).result
      = (ofNode o (.root (ns ++ ms.map (Node.raise k)))).result :=
    result_of_read hscanned (Node.ofStatements_concat hroot hroot')
  refine ⟨_, _, hdocument, hdocument', fun htag => ?_, fun htag => ?_⟩
  · obtain rfl : d = e := unionTag_injective htag
    obtain ⟨hraised, hsame⟩ := emitNodes_raise (k := k) hwritten'
    obtain ⟨hfailure, helements⟩ := emitRoot_append hagree hagree'.raise hwritten hraised
    rw [hdocument] at hxml
    rw [hdocument'] at hxml'
    obtain ⟨xml, hmarkup⟩ := Element.markup_append hxml hxml'
    refine ⟨⟨_, xml⟩, ?_, rfl⟩
    rw [hresult, result_ofNode, hfailure, helements, hsame]
    dsimp only
    rw [hmarkup]
    rfl
  · have hne : d ≠ e := fun hde => htag (congrArg unionTag hde)
    rw [hresult, result_ofNode, emitRoot_append_mixed hagree hagree'.raise hne]
    exact ⟨_, rfl, rfl, rfl⟩

/-- `outline output` — the unions of a document, each with the tags of what is in it. -/
def outline (output : Output) : List (String × List String) :=
  output.document.children.map fun u => (u.tag, u.children.map (·.tag))

theorem exists_outline {o : ConvertOptions} {text : String} {unions : List (String × List String)}
    (h : (ofText o text).result.toOption.map outline = some unions) :
    ∃ output, (ofText o text).result = .ok output ∧ outline output = unions := by
  cases hresult : (ofText o text).result with
  | error f => rw [hresult] at h; exact nomatch h
  | ok output =>
    rw [hresult] at h
    exact ⟨output, rfl, Option.some.inj h⟩

theorem tags_of_outline {output : Output} {u : Element} {tag : String} {tags : List String}
    (hdocument : output.document = ⟨"xcsg", [("version", .text "1.0")], [u]⟩)
    (h : outline output = [(tag, tags)]) : u.tag = tag ∧ u.children.map (·.tag) = tags := by
  rw [outline, hdocument] at h
  exact Prod.mk.inj (List.head_eq_of_cons_eq h)

/-- A disk and a square, with a ball that is left out and a comment that runs to the end. -/
def plateText : String := "circle(r=1); %group()\x7bsphere(r=2);\x7d\nsquare(size=2); // a plate"

/-- A ball behind a comment. -/
def ballText : String := "/* a ball */ sphere(r=1);"

theorem ofText_concat_plates :
    (∃ output, (ofText (.standard .rounded) (plateText ++ "\n" ++ plateText)).result = .ok output ∧
      outline output = [("union2d", ["circle", "rectangle", "circle", "rectangle"])]) ∧
    ∃ f, (ofText (.standard .rounded) (plateText ++ "\n" ++ ballText)).result = .error (.fault f) ∧
      f.cause.code = .shapeUnsupported ∧ f.location = some ⟨0, "root", "root()"⟩ := by
  have hplates : (ofText (.standard .rounded) plateText).result.toOption.map outline
      = some [("union2d", ["circle", "rectangle"])] := by
    decide +kernel
  have hballs : (ofText (.standard .rounded) ballText).result.toOption.map outline
      = some [("union3d", ["sphere"])] := by
    decide +kernel
  obtain ⟨plate, hplate, hplateOutline⟩ := exists_outline hplates
  obtain ⟨ball, hball, hballOutline⟩ := exists_outline hballs
  constructor
  · obtain ⟨u, v, hu, hv, hsame, -⟩ := ofText_concat hplate hplate
    obtain ⟨htag, htags⟩ := tags_of_outline hu hplateOutline
    obtain ⟨htag', htags'⟩ := tags_of_outline hv hplateOutline
    obtain ⟨output, houtput, hdocument⟩ := hsame (htag.trans htag'.symm)
    refine ⟨output, houtput, ?_⟩
    rw [outline, hdocument]
    simp only [List.map_cons, List.map_nil, List.map_append, htag, htags, htags']
    rfl
  · obtain ⟨u, v, hu, hv, -, hmixed⟩ := ofText_concat hplate hball
    have htag : u.tag = "union2d" := (tags_of_outline hu hplateOutline).1
    have htag' : v.tag = "union3d" := (tags_of_outline hv hballOutline).1
    refine hmixed ?_
    rw [htag, htag']
    decide

end Conversion

end SolidExport
