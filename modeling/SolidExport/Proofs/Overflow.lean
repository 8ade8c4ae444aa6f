/-
  When a conversion raises instead of reporting.

  Parameters are checked to be finite, but two encoders compute with them afterwards: the angle of a
  revolution is taken to radians, and the control points of a sweep are laid out along its path.
  Either may overflow (`Node.overflows`).  The check that finds it is the one that writes the
  document, and its refusal is no fault of the text.

  `ofText_raises_iff` says that this is the only way: with a possible precision a conversion raises
  exactly if the tree is written without a fault and a node that is kept overflows.  A conversion that
  neither raises nor returns has met a sweep whose path has no end (`Node.Stalls`).
-/
import SolidExport.Proofs.Emission.Failure
import SolidExport.Proofs.Schema.Document

namespace SolidExport

open Element (FiniteHere Throughout)

/-! ## Overflows -/

/-- `p.isFinite` — whether all numbers that are written for the control point `p` are finite, those
    of its tangent among them. -/
def ControlPoint.isFinite (p : ControlPoint) : Bool :=
  [p.position.x, p.position.y, p.position.z, p.tangent.x, p.tangent.y, p.tangent.z].all
    Float.isFinite

namespace Shape

/-- `angleOverflows n` — whether the angle of the revolution `n` is finite in degrees but not in
    radians. -/
def angleOverflows (n : Node) : Bool :=
  match n.number? "angle" with
  | .ok angle => !(Angle.ofDegrees (angle.getD 360.0)).isFinite
  | .error _ => false

/-- `pathOverflows n` — whether the path of the sweep `n` has an end and leaves the range of doubles
    on the way. -/
def pathOverflows [Trig] (n : Node) : Bool :=
  match sweepOf n with
  | .ok s => match s.controlPoints with
    | .ok points => !points.all ControlPoint.isFinite
    | .error _ => false
  | .error _ => false

/-- `overflows target n` — whether the encoder of `target` computes a number from the node `n` that is
not finite. -/
def overflows [Trig] (target : String) (n : Node) : Bool :=
  if target = "rotate_extrude" then angleOverflows n
  else if target = "sweep" then pathOverflows n
  else false

end Shape

/-- `n.overflows o` — whether the node `n` is written under the options `o` with a number that is
    not finite. -/
def Node.overflows (o : EmitOptions) (n : Node) : Bool :=
  match n.plan o with
  | .ok (.encode target _) => @Shape.overflows o.trig target n
  | _ => false

/-! ## One element -/

namespace Schema

open Shape (Encodes)

theorem Field.Admits.finite {field : Field} {value : Attribute} (h : field.Admits value)
    (hfield : field.isFinite = true) : value.Finite := by
  cases value with
  | boolean b => trivial
  | text t => trivial
  | number x =>
    cases field with
    | positive => exact h.1
    | nonNegative => exact h.1
    | finite => exact h
    | number => exact nomatch hfield
    | boolean => exact h.elim

theorem Conforms.finite {fields : List (String × Field)} {attributes : List (String × Attribute)}
    (h : Conforms fields attributes) (hfields : fields.all (·.2.isFinite) = true) :
    ∀ a ∈ attributes, a.2.Finite := by
  induction h with
  | nil => exact fun a ha => absurd ha List.not_mem_nil
  | cons hfb _ ih =>
    rw [List.all_cons, Bool.and_eq_true] at hfields
    intro a ha
    rcases List.mem_cons.mp ha with rfl | ha
    · exact hfb.2.finite hfields.1
    · exact ih hfields.2 a ha

theorem ofParts_finite : OfParts FiniteHere where
  list := by
    intro e _ hnone a ha
    rw [hnone] at ha
    exact absurd ha List.not_mem_nil
  leaf _ hattributes hfields _ := hattributes.finite hfields

/-- A shape that is neither a revolution nor a sweep is begun with finite numbers: all of them are
    parameters that were checked. -/
theorem IsBegun.finite {target : String} {e : Element} (h : IsBegun target e)
    (htag : target ∈ shapeTags) (hangle : target ≠ "rotate_extrude") (hsweep : target ≠ "sweep") :
    e.Throughout FiniteHere := by
  have hfields : ∀ t ∈ shapeTags, t ≠ "rotate_extrude" →
      (fields t).all (·.2.isFinite) = true := by decide
  refine .mk (h.attributes.finite (hfields target htag hangle)) ?_
  exact h.blocks.throughout ofParts_finite fun _ hpath => absurd hpath hsweep

/-- The element of a control point has finite numbers exactly if the point has. -/
theorem finite_controlPoint (p : ControlPoint) :
    (controlPointElement p).Throughout FiniteHere ↔ p.isFinite = true := by
  rw [Throughout.iff_here rfl]
  simp [FiniteHere, controlPointElement, Attribute.Finite, ControlPoint.isFinite]

/-- **An encoder writes finite numbers unless it overflows.**  One case for each line of the table,
    of which two can overflow. -/
theorem finite_encoded {trig : Trig} {target : String} {encoder : Node → Draft Encoding} {n : Node}
    {encoding : Encoding} {e : Element} (hencodes : Encodes target encoder) (hn : n.NoNaN)
    (h : encoder n (.new target) = .ok encoding e) :
    e.Throughout FiniteHere ↔ Shape.overflows target n = false := by
  have hbegun := isBegun_of_ok hencodes hn h
  have htag := mem_shapeTags hencodes
  have hother : target ≠ "rotate_extrude" → target ≠ "sweep" →
      (e.Throughout FiniteHere ↔ Shape.overflows target n = false) := by
    intro hangle hsweep
    refine iff_of_true (hbegun.finite htag hangle hsweep) ?_
    rw [Shape.overflows, if_neg hangle, if_neg hsweep]
  cases hencodes with
  | revolution =>
    obtain ⟨angle, hangle, rfl⟩ := rotateExtrude_ok (Shape.revolution_ok h).1
    rw [Throughout.iff_here rfl, Shape.overflows, if_pos rfl, Shape.angleOverflows, hangle]
    simp [FiniteHere, Element.set, Element.new, Named.set, Attribute.Finite]
  | sweep =>
    obtain ⟨s, points, hs, hpoints, rfl⟩ := sweep_ok (Shape.plain_ok h).1
    have hoverflows : Shape.overflows "sweep" n = !points.all ControlPoint.isFinite := by
      rw [Shape.overflows, if_neg (by decide), if_pos rfl, Shape.pathOverflows, hs]
      dsimp only
      rw [hpoints]
    rw [hoverflows]
    show ((Element.new "sweep").append
      [(Element.new "spline_path").append (points.map controlPointElement)]).Throughout FiniteHere ↔ _
    simp [Element.finite_append, Element.finite_new, finite_controlPoint]
  | union hmem =>
    have hne : ∀ t ∈ ["union2d", "union3d", "hull2d", "hull3d"],
        t ≠ "rotate_extrude" ∧ t ≠ "sweep" := by decide
    exact hother (hne _ hmem).1 (hne _ hmem).2
  | binary hmem =>
    have hne : ∀ t ∈ ["difference2d", "difference3d", "intersection2d", "intersection3d",
        "minkowski2d", "minkowski3d"], t ≠ "rotate_extrude" ∧ t ≠ "sweep" := by decide
    exact hother (hne _ hmem).1 (hne _ hmem).2
  | _ => exact hother (by decide) (by decide)

/-! ## One node -/

theorem finite_cut : Shape.cut.Throughout FiniteHere := by
  have hslab : slab.Throughout FiniteHere :=
    (Throughout.iff_here rfl).mpr (conforms_slab.finite rfl)
  refine .mk (fun a ha => absurd ha List.not_mem_nil) fun c hc => ?_
  rw [List.mem_singleton.mp hc]
  exact hslab

/-- A frame that is filled has finite numbers exactly if the node does not overflow and what it is
    filled with has. -/
theorem finite_fill {o : EmitOptions} {n : Node} {f : Frame} (hn : n.NoNaN)
    (hf : n.frame? o = some f) (operands : List Element) :
    (f.fill operands).Throughout FiniteHere ↔
      n.overflows o = false ∧ ∀ s ∈ operands, s.Throughout FiniteHere := by
  obtain ⟨target, encoder, hplan, -, hencode⟩ := Node.frame?_eq_some hf
  have hencodes := Shape.encodes_of_encoder? (Node.plan_encode hplan).2
  have hoverflows : n.overflows o = @Shape.overflows o.trig target n := by rw [Node.overflows, hplan]
  have hblock : ∀ m ∈ f.block, m.Throughout FiniteHere :=
    fun m hm => (isMatrix_of_mem_block hf hm).throughout ofParts_finite
  have hrest : (∀ c ∈ f.block ++ operands, c.Throughout FiniteHere) ↔
      ∀ s ∈ operands, s.Throughout FiniteHere := by
    rw [List.forall_mem_append]
    exact and_iff_right hblock
  rw [hoverflows, ← finite_encoded hencodes hn hencode, ← hrest]
  unfold Frame.fill
  rcases Shape.mount_of_ok hencodes hencode with hown | ⟨-, -, hnested, -⟩
  · rw [hown]
    exact Element.finite_append
  · rw [hnested]
    show (f.element.append [Shape.cut.append (f.block ++ operands)]).Throughout FiniteHere ↔ _
    rw [Element.finite_append, List.forall_mem_singleton, Element.finite_append]
    exact and_congr_right fun _ => and_iff_right finite_cut

end Schema

/-! ## Trees -/

namespace Node

/-- `n.AllKept Q` — `Q` holds of the node `n` and of every node below it that is kept. -/
def AllKept (Q : Node → Prop) (n : Node) : Prop :=
  ∀ p m, n.keeps p = true → n.at? p = some m → Q m

/-- What holds of all that is kept below a node holds of each child with geometry and of all that is
    kept below that.  So it can be proved by induction on the tree. -/
theorem forall_kept_iff {Q : Node → Prop} {n : Node} :
    (∀ p m, n.Kept p → n.at? p = some m → Q m) ↔
      ∀ c ∈ n.children, c.hasGeometry = true → c.AllKept Q := by
  constructor
  · intro h c hc hgeometry p m hkeeps hm
    obtain ⟨i, hi⟩ := List.mem_iff_getElem?.mp hc
    have hkept : n.Kept (i :: p) :=
      ⟨List.cons_ne_nil i p, keeps_cons.mpr ⟨c, hi, hgeometry, hkeeps⟩⟩
    exact h (i :: p) m hkept ((at?_cons hi p).trans hm)
  · rintro h p m ⟨hne, hkeeps⟩ hm
    cases p with
    | nil => exact absurd rfl hne
    | cons i p =>
      obtain ⟨c, hi, hgeometry, hkeeps'⟩ := keeps_cons.mp hkeeps
      rw [at?_cons hi] at hm
      exact h c (List.mem_of_getElem? hi) hgeometry p m hkeeps' hm

theorem allKept_iff {Q : Node → Prop} {n : Node} :
    n.AllKept Q ↔ Q n ∧ ∀ c ∈ n.children, c.hasGeometry = true → c.AllKept Q := by
  rw [← forall_kept_iff]
  constructor
  · intro h
    exact ⟨h [] n rfl rfl, fun p m hkept hm => h p m hkept.2 hm⟩
  · rintro ⟨hn, hbelow⟩ p m hkeeps hm
    cases p with
    | nil =>
      injection hm with hm
      subst hm
      exact hn
    | cons i p => exact hbelow (i :: p) m ⟨List.cons_ne_nil i p, hkeeps⟩ hm

end Node

section

variable {o : EmitOptions}

/-- Nodes in a row give finite numbers exactly if each of them does. -/
theorem finite_emitNodes {ns : List Node} (h : (emitNodes o ns).failure = none)
    (hns : ∀ n ∈ ns, (emitNode o n).failure = none →
      ((∀ e ∈ (emitNode o n).elements, e.Throughout FiniteHere) ↔
        (n.hasGeometry = true → n.AllKept fun m => m.overflows o = false))) :
    (∀ e ∈ (emitNodes o ns).elements, e.Throughout FiniteHere) ↔
      ∀ n ∈ ns, n.hasGeometry = true → n.AllKept fun m => m.overflows o = false := by
  obtain ⟨hall, helements, -⟩ := emitNodes_ok h
  rw [helements]
  constructor
  · intro hfinite n hn
    rw [← hns n hn (hall n hn)]
    exact fun e he => hfinite e (List.mem_flatMap.mpr ⟨n, hn, he⟩)
  · intro hkept e he
    obtain ⟨n, hn, he⟩ := List.mem_flatMap.mp he
    exact (hns n hn (hall n hn)).mpr (hkept n hn) e he

/-- **A node gives finite numbers exactly if no node that is kept overflows**, itself or below
    it. -/
theorem finite_emitNode {n : Node} (hn : n.NoNaN) (h : (emitNode o n).failure = none) :
    (∀ e ∈ (emitNode o n).elements, e.Throughout FiniteHere) ↔
      (n.hasGeometry = true → n.AllKept fun m => m.overflows o = false) := by
  induction n using Node.induction with
  | step n ih =>
    cases hgeometry : n.hasGeometry with
    | false =>
      have hnone : (emitNode o n).elements = [] := by
        have hlength := length_elements_of_ok h
        rw [hgeometry] at hlength
        exact List.eq_nil_of_length_eq_zero hlength
      rw [hnone]
      exact iff_of_true (fun e he => absurd he List.not_mem_nil) nofun
    | true =>
      obtain ⟨f, hf, hchildren, helements⟩ := elements_of_geometry h hgeometry
      have hbelow := finite_emitNodes hchildren fun c hc hok => ih c hc (hn.children hc) hok
      rw [helements, List.forall_mem_singleton, Schema.finite_fill hn hf, hbelow, Node.allKept_iff]
      exact ⟨fun hkept _ => hkept, fun hkept => hkept rfl⟩

/-- A document has finite numbers exactly if no node of its tree that is kept overflows. -/
theorem finite_document {root : Node} (hn : root.NoNaN) (h : (emitRoot o root).failure = none) :
    (emptyDocument.append (emitRoot o root).elements).Throughout FiniteHere ↔
      ∀ p n, root.Kept p → root.at? p = some n → n.overflows o = false := by
  obtain ⟨d, -, hchildren, helements, -⟩ := emitRoot_ok h
  have hempty : emptyDocument.Throughout FiniteHere := by
    refine (Throughout.iff_here rfl).mpr fun a ha => ?_
    rw [List.mem_singleton.mp ha]
    trivial
  have hroot : (Element.mk (unionTag d) [] (emitNodes o root.children).elements).Throughout FiniteHere ↔
      ∀ e ∈ (emitNodes o root.children).elements, e.Throughout FiniteHere := by
    show ((Element.new (unionTag d)).append _).Throughout FiniteHere ↔ _
    rw [Element.finite_append]
    exact and_iff_right (Element.finite_new _)
  rw [helements, Element.finite_append, List.forall_mem_singleton, hroot, Node.forall_kept_iff,
    finite_emitNodes hchildren fun c hc hok => finite_emitNode (hn.children hc) hok]
  exact and_iff_right hempty

end

/-! ## Texts -/

/-- The document of a tree is refused when it is written exactly if a node that is kept overflows,
    with a possible precision. -/
theorem markup_document_error_iff {o : ConvertOptions} {root : Node}
    (hprecision : (precisionDigits? o.precision).isSome = true) (hn : root.NoNaN)
    (h : (emitRoot o.emit root).failure = none) :
    (∃ r, (emptyDocument.append (emitRoot o.emit root).elements).markup o.precision
        Element.defaultIndent = .error r) ↔
      ∃ p n, root.Kept p ∧ root.at? p = some n ∧ n.overflows o.emit = true := by
  have hrefused : ∀ written : Except RangeFault String,
      (∃ r, written = .error r) ↔ ¬ ∃ xml, written = .ok xml := by
    intro written
    cases written <;> simp
  rw [hrefused, Element.markup_ok_iff hprecision, finite_document hn h]
  simp only [not_forall, exists_prop, Bool.not_eq_false]

/-- Where a conversion ends at a number: the tree of the text is not written, or its document is not. -/
theorem Conversion.ofText_range_iff {o : ConvertOptions} {text : String} {r : RangeFault} :
    (ofText o text).result = .error (.range r) ↔
      ∃ statements root, (Statement.scan text).result = .ok statements ∧
        Node.ofStatements statements = .ok root ∧
        ((emitRoot o.emit root).failure = some (.range r) ∨
          (emitRoot o.emit root).failure = none ∧
          (emptyDocument.append (emitRoot o.emit root).elements).markup o.precision
            Element.defaultIndent = .error r) := by
  constructor
  · intro h
    obtain ⟨statements, root, hscan, hroot, hnode⟩ := read_of_result h nofun
    refine ⟨statements, root, hscan, hroot, ?_⟩
    rw [result_ofNode] at hnode
    split at hnode
    · rename_i f hfailure
      injection hnode with hnode
      exact .inl (hnode ▸ hfailure)
    · rename_i hfailure
      split at hnode
      · exact nomatch hnode
      · rename_i r' hmarkup
        injection hnode with hnode
        injection hnode with hnode
        exact .inr ⟨hfailure, hnode ▸ hmarkup⟩
  · rintro ⟨statements, root, hscan, hroot, hfailure | ⟨hfailure, hmarkup⟩⟩
    · rw [result_of_read hscan hroot, result_ofNode, hfailure]
    · rw [result_of_read hscan hroot, result_ofNode, hfailure]
      dsimp only
      rw [hmarkup]

/-- Writing a tree never fails for a number that is not finite: such a number is found out only when
    the document is written. -/
theorem emitRoot_failure_ne_nonFinite (o : EmitOptions) (root : Node) (x : Float) :
    (emitRoot o root).failure ≠ some (.range (.nonFinite x)) := by
  intro h
  obtain ⟨f, hf, -⟩ | ⟨count, _, _, hcount, -⟩ := emitRoot_failure h
  · exact nomatch hf
  · exact nomatch hcount

/-- **When a conversion raises.**  With a precision from one to seventeen a number that is not finite is
    refused exactly if the tree of the text is written and a node that is kept overflows.  Otherwise
    the failure of a conversion is a fault of the text, or it has come to a node whose path has no end
    and does not return. -/
theorem ofText_raises_iff {o : ConvertOptions}
    (hp : ∃ k : Nat, 1 ≤ k ∧ k ≤ 17 ∧ o.precision = Float.ofNat k) (text : String) :
    ((∃ x, (Conversion.ofText o text).result = .error (.range (.nonFinite x))) ↔
      ∃ statements root, (Statement.scan text).result = .ok statements ∧
        Node.ofStatements statements = .ok root ∧ (emitRoot o.emit root).failure = none ∧
        ∃ p n, root.Kept p ∧ root.at? p = some n ∧ n.overflows o.emit = true) ∧
    ∀ r, (Conversion.ofText o text).result = .error (.range r) →
      (∃ x, r = .nonFinite x ∧ x.isFinite = false) ∨
      ∃ count statements root p n, r = .endless count ∧
        (Statement.scan text).result = .ok statements ∧ Node.ofStatements statements = .ok root ∧
        root.at? p = some n ∧ n.Stalls o.emit count := by
  obtain ⟨k, hone, hmost, hk⟩ := hp
  have hprecision : (precisionDigits? o.precision).isSome = true := by
    rw [hk]
    exact precisionDigits?_ofNat hone hmost
  refine ⟨⟨?_, ?_⟩, ?_⟩
  · rintro ⟨x, hx⟩
    obtain ⟨statements, root, hscan, hroot, hstopped | ⟨hfailure, hmarkup⟩⟩ :=
      Conversion.ofText_range_iff.mp hx
    · exact absurd hstopped (emitRoot_failure_ne_nonFinite _ _ _)
    · have hrefused := markup_document_error_iff hprecision (Node.ofStatements_noNaN hroot) hfailure
      exact ⟨statements, root, hscan, hroot, hfailure, hrefused.mp ⟨_, hmarkup⟩⟩
  · rintro ⟨statements, root, hscan, hroot, hfailure, hoverflow⟩
    have hrefused := markup_document_error_iff hprecision (Node.ofStatements_noNaN hroot) hfailure
    obtain ⟨r, hmarkup⟩ := hrefused.mpr hoverflow
    obtain ⟨x, rfl, -⟩ := Element.markup_error hprecision hmarkup
    exact ⟨x, Conversion.ofText_range_iff.mpr
      ⟨statements, root, hscan, hroot, .inr ⟨hfailure, hmarkup⟩⟩⟩
  · intro r hr
    obtain ⟨statements, root, hscan, hroot, hstopped | ⟨-, hmarkup⟩⟩ :=
      Conversion.ofText_range_iff.mp hr
    · right
      obtain ⟨f, hf, -⟩ | ⟨count, p, n, hcount, hn, hstalls⟩ := emitRoot_failure hstopped
      · exact nomatch hf
      · injection hcount with hcount
        exact ⟨count, statements, root, p, n, hcount, hscan, hroot, hn, hstalls⟩
    · exact .inl (Element.markup_error hprecision hmarkup)

/-- A revolution by an angle that is a double in degrees and none in radians. -/
def overturnedText : String := "rotate_extrude(angle=1e308)\x7bsquare(size=1);\x7d"

theorem ofText_raises_overturned :
    (∃ x, (Conversion.ofText (.standard .rounded) overturnedText).result =
        .error (.range (.nonFinite x))) ∧
      ∃ statements root, (Statement.scan overturnedText).result = .ok statements ∧
        Node.ofStatements statements = .ok root ∧
        (emitRoot (ConvertOptions.standard .rounded).emit root).failure = none ∧
        ∃ p n, root.Kept p ∧ root.at? p = some n ∧
          n.overflows (ConvertOptions.standard .rounded).emit = true := by
  have hprecision : ∃ k : Nat, 1 ≤ k ∧ k ≤ 17 ∧
      (ConvertOptions.standard .rounded).precision = Float.ofNat k := ⟨12, by decide, by decide, rfl⟩
  have hraises : ∃ x, (Conversion.ofText (.standard .rounded) overturnedText).result =
      .error (.range (.nonFinite x)) := by
    have hrange : (match (Conversion.ofText (.standard .rounded) overturnedText).result with
        | .error (.range (.nonFinite _)) => true
        | _ => false) = true := by
      decide +kernel
    split at hrange
    · rename_i x hx
      exact ⟨x, hx⟩
    · exact nomatch hrange
  exact ⟨hraises, (ofText_raises_iff hprecision overturnedText).1.mp hraises⟩

end SolidExport
