/-
  The tag of what a node is written as.

  An encoder may set attributes and add children, but it leaves the tag of its element alone
  (`Shape.tag_of_ok`), so a node is written under the target that its plan names (`Frame.tag_fill`).

  A combination, that is a union, hull, difference, intersection or sum, has nothing in its element
  but a transformation and its operands (`Frame.children_fill`), and its operands were checked.
-/
import SolidExport.Proofs.Emission.Placement
import SolidExport.Proofs.Schema.Encoder

namespace SolidExport

/-! ## Encoders and tags -/

namespace Shape

variable {trig : Trig} {target : String} {encoder : Node → Draft Encoding} {n : Node}
  {e e' : Element} {encoding : Encoding}

theorem tag_foldl_set (values : List (String × Attribute)) (e : Element) :
    (values.foldl (fun e a => e.set a.1 a.2) e).tag = e.tag := by
  induction values generalizing e with
  | nil => rfl
  | cons a values ih => rw [List.foldl_cons, ih]; rfl

theorem tag_of_box {axes : List String} {u : Unit} (h : box axes n e = .ok u e') :
    e'.tag = e.tag := by
  obtain ⟨values, center, -, rfl⟩ := Schema.box_ok h
  exact tag_foldl_set values e

theorem tag_of_polyhedron {u : Unit} (h : polyhedron n e = .ok u e') : e'.tag = e.tag := by
  obtain ⟨points, -, hguard⟩ := Draft.read_bind_ok.mp h
  obtain ⟨_, v, -, hmore⟩ := Draft.child_bind_ok.mp (Draft.guard_ok.mp hguard).2
  obtain ⟨faces, -, hlast⟩ := Draft.read_bind_ok.mp hmore
  obtain ⟨f, -, rfl⟩ := Draft.child_ok.mp hlast
  rfl

/-- **An encoder leaves the tag of its element alone.**  One case for each line of the table. -/
theorem tag_of_ok (hencodes : Encodes target encoder) (h : encoder n e = .ok encoding e') :
    e'.tag = e.tag := by
  cases hencodes with
  | circle =>
    obtain ⟨r, -, rfl⟩ := Schema.ball_ok (plain_ok h).1
    rfl
  | sphere =>
    obtain ⟨r, -, rfl⟩ := Schema.ball_ok (plain_ok h).1
    rfl
  | rectangle => exact tag_of_box (plain_ok h).1
  | cuboid => exact tag_of_box (plain_ok h).1
  | cone =>
    obtain ⟨_, _, _, _, -, -, -, -, rfl⟩ := Schema.cone_ok (plain_ok h).1
    rfl
  | polygon =>
    obtain ⟨vertices, -, rfl⟩ := Schema.polygon_ok (plain_ok h).1
    rfl
  | polyhedron => exact tag_of_polyhedron (plain_ok h).1
  | offset =>
    obtain ⟨_, _, _, -, rfl⟩ := Schema.offset_ok (plain_ok h).1
    rfl
  | linearExtrude =>
    obtain ⟨_, _, -, rfl⟩ := Schema.linearExtrude_ok (plain_ok h).1
    rfl
  | sweep =>
    obtain ⟨_, _, -, -, rfl⟩ := Schema.sweep_ok (plain_ok h).1
    rfl
  | revolution =>
    obtain ⟨angle, -, rfl⟩ := Schema.rotateExtrude_ok (revolution_ok h).1
    rfl
  | projection =>
    obtain ⟨isCut, -, rfl, -⟩ := projection_ok h
    rfl
  | union _ => rw [Schema.union_ok (plain_ok h).1]
  | binary _ => rw [Schema.binary_ok (plain_ok h).1]

/-- **A combination writes nothing of its own** and has checked its operands: they agree, and there
    are two where two are needed. -/
theorem combination_ok (hencodes : Encodes target encoder) (htag : target ∈ unionTags ++ binaryTags)
    (h : encoder n e = .ok encoding e') :
    e' = e ∧ encoding.mount = .own ∧ checkUniform n target = .ok () ∧
      (target ∈ binaryTags → 2 ≤ n.countChildren) := by
  cases hencodes with
  | union hunion =>
    obtain ⟨hbody, rfl⟩ := plain_ok h
    obtain ⟨huniform, rfl⟩ := Draft.read_ok.mp hbody
    have hdisjoint : ∀ t ∈ unionTags, t ∉ binaryTags := by decide
    exact ⟨rfl, rfl, huniform, fun hbinary => absurd hbinary (hdisjoint target hunion)⟩
  | binary _ =>
    obtain ⟨hbody, rfl⟩ := plain_ok h
    obtain ⟨hcount, hread⟩ := Draft.guard_ok.mp hbody
    obtain ⟨huniform, rfl⟩ := Draft.read_ok.mp hread
    exact ⟨rfl, rfl, huniform, fun _ => Nat.not_lt.mp hcount⟩
  | _ => exact absurd htag (by decide)

end Shape

/-! ## Nodes and tags -/

/-- `n.target? o` — the target of the node `n` under the options `o`, if it is to be encoded.  There
    is none for a node that is passed over or refused. -/
def Node.target? (o : EmitOptions) (n : Node) : Option String :=
  match n.plan o with
  | .ok (.encode target _) => some target
  | _ => none

section

variable {o : EmitOptions} {n : Node} {f : Frame}

/-- The encoder that a frame comes from, as a line of the table. -/
theorem Node.encodes_of_frame (hf : n.frame? o = some f) :
    ∃ target encoder, n.target? o = some target ∧ @Shape.Encodes o.trig target encoder ∧
      encoder n (.new target) = .ok f.encoding f.element := by
  obtain ⟨target, encoder, hplan, -, hencode⟩ := Node.frame?_eq_some hf
  refine ⟨target, encoder, ?_, Shape.encodes_of_encoder? (Node.plan_encode hplan).2, hencode⟩
  rw [Node.target?, hplan]

/-- What a frame is filled with does not change the tag of its element. -/
theorem Frame.tag_fill_eq (f : Frame) (es : List Element) : (f.fill es).tag = f.element.tag := by
  unfold fill Mount.close
  cases f.encoding.mount with
  | own => rfl
  | nested inner => rfl

/-- **A node is written under its target**, whatever it is filled with. -/
theorem Frame.tag_fill (hf : n.frame? o = some f) (es : List Element) :
    n.target? o = some (f.fill es).tag := by
  obtain ⟨target, encoder, htarget, hencodes, hencode⟩ := Node.encodes_of_frame hf
  rw [htarget, tag_fill_eq, Shape.tag_of_ok hencodes hencode]
  rfl

/-- A node is written under the tag of a shape, so it is never taken for a part. -/
theorem Frame.tag_fill_mem (hf : n.frame? o = some f) (es : List Element) :
    (f.fill es).tag ∈ Schema.shapeTags := by
  obtain ⟨target, encoder, -, hencodes, hencode⟩ := Node.encodes_of_frame hf
  rw [tag_fill_eq, Shape.tag_of_ok hencodes hencode]
  exact Schema.mem_shapeTags hencodes

/-- **The element of a combination** holds its transformation and its operands, which were checked. -/
theorem Frame.children_fill (hf : n.frame? o = some f) {es : List Element}
    (htag : (f.fill es).tag ∈ Shape.unionTags ++ Shape.binaryTags) :
    (f.fill es).children = f.block ++ es ∧ Shape.checkUniform n (f.fill es).tag = .ok () ∧
      ((f.fill es).tag ∈ Shape.binaryTags → 2 ≤ n.countChildren) := by
  obtain ⟨target, encoder, htarget, hencodes, hencode⟩ := Node.encodes_of_frame hf
  obtain rfl : (f.fill es).tag = target := by
    rw [tag_fill hf es] at htarget
    injection htarget
  obtain ⟨hnew, hown, huniform, hcount⟩ := Shape.combination_ok hencodes htag hencode
  refine ⟨?_, huniform, hcount⟩
  unfold fill
  rw [hown, hnew]
  rfl

end

end SolidExport
