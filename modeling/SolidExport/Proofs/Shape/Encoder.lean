/-
  Which encoder a target has, and where an encoder leaves the operands.

  `Encodes` is the table of encoders as a relation: a proof about every encoder is one about each
  line of it.  Only a cut projection puts its operands one level further down (`mount_of_ok`), and only
  a revolution corrects the transformation (`corrective_of_ok`).
-/
import SolidExport.Proofs.Draft
import SolidExport.Shape.Encoder

namespace SolidExport.Shape

/-- The targets of combinations that any number of operands will do for. -/
def unionTags : List String := ["union2d", "union3d", "hull2d", "hull3d"]

/-- The targets of combinations that need two operands.  Their encoder refuses a node with fewer. -/
def binaryTags : List String :=
  ["difference2d", "difference3d", "intersection2d", "intersection3d", "minkowski2d", "minkowski3d"]

/-- `Encodes target encoder` — the table of encoders, a line for each target that has one. -/
inductive Encodes [Trig] : String → (Node → Draft Encoding) → Prop where
  | circle : Encodes "circle" (plain ball)
  | sphere : Encodes "sphere" (plain ball)
  | rectangle : Encodes "rectangle" (plain rectangle)
  | polygon : Encodes "polygon" (plain polygon)
  | offset : Encodes "offset2d" (plain offset)
  | projection : Encodes "projection2d" projection
  | cuboid : Encodes "cuboid" (plain cuboid)
  | cone : Encodes "cone" (plain cone)
  | polyhedron : Encodes "polyhedron" (plain polyhedron)
  | linearExtrude : Encodes "linear_extrude" (plain linearExtrude)
  | sweep : Encodes "sweep" (plain sweep)
  | revolution : Encodes "rotate_extrude" revolution
  | union {tag : String} (h : tag ∈ ["union2d", "union3d", "hull2d", "hull3d"]) :
      Encodes tag (plain (union tag))
  | binary {tag : String}
      (h : tag ∈ ["difference2d", "difference3d", "intersection2d", "intersection3d",
        "minkowski2d", "minkowski3d"]) :
      Encodes tag (plain (binary tag))

variable {trig : Trig}

/-- A target with an encoder is in the table, so that what is said of all encoders is proved line by
    line. -/
theorem encodes_of_encoder? {target : String} {encoder : Node → Draft Encoding}
    (h : encoder? target = some encoder) : Encodes target encoder := by
  unfold encoder? at h
  split at h
  case h_13 =>
    split at h
    · rename_i htag
      injection h with h
      subst h
      exact .union (List.contains_iff_mem.mp htag)
    · split at h
      · rename_i htag
        injection h with h
        subst h
        exact .binary (List.contains_iff_mem.mp htag)
      · exact nomatch h
  all_goals
    injection h with h
    subst h
    constructor

/-! ## What an encoder leaves to be done -/

section

variable {n : Node} {e e' : Element} {encoding : Encoding}

/-- A plain encoder that succeeds has run its body, and leaves its operands to the element
    itself. -/
theorem plain_ok {body : Node → Draft Unit} (h : plain body n e = .ok encoding e') :
    body n e = .ok () e' ∧ encoding = ⟨.own, none⟩ := by
  obtain ⟨u, m, hbody, hpure⟩ := Draft.bind_ok.mp h
  obtain ⟨rfl, rfl⟩ := Draft.pure_ok.mp hpure
  exact ⟨hbody, rfl⟩

theorem projection_ok (h : projection n e = .ok encoding e') :
    ∃ isCut, n.flag "cut" = .ok isCut ∧ e' = e ∧
      encoding = ⟨if isCut then .nested cut else .own, none⟩ := by
  obtain ⟨isCut, m, hread, hpure⟩ := Draft.bind_ok.mp h
  obtain ⟨hflag, rfl⟩ := Draft.read_ok.mp hread
  obtain ⟨rfl, rfl⟩ := Draft.pure_ok.mp hpure
  exact ⟨isCut, hflag, rfl, rfl⟩

theorem revolution_ok (h : revolution n e = .ok encoding e') :
    rotateExtrude n e = .ok () e' ∧ encoding = ⟨.own, some revolutionCorrection⟩ := by
  obtain ⟨u, m, hbody, hpure⟩ := Draft.bind_ok.mp h
  obtain ⟨rfl, rfl⟩ := Draft.pure_ok.mp hpure
  exact ⟨hbody, rfl⟩

/-- The operands of a shape stand in its own element, those of a cut projection in the
    intersection that is all there is in it. -/
theorem mount_of_ok {target : String} {encoder : Node → Draft Encoding}
    (hencodes : Encodes target encoder) (h : encoder n e = .ok encoding e') :
    encoding.mount = .own ∨
    (target = "projection2d" ∧ n.flag "cut" = .ok true ∧ encoding.mount = .nested cut ∧ e' = e) := by
  cases hencodes with
  | projection =>
    obtain ⟨isCut, hflag, rfl, rfl⟩ := projection_ok h
    cases isCut with
    | true => exact Or.inr ⟨rfl, hflag, rfl, rfl⟩
    | false => exact Or.inl rfl
  | revolution =>
    obtain ⟨-, rfl⟩ := revolution_ok h
    exact Or.inl rfl
  | _ =>
    obtain ⟨-, rfl⟩ := plain_ok h
    exact Or.inl rfl

/-- The correction depends on the target alone: a revolution has one, and nothing else does. -/
theorem corrective_of_ok {target : String} {encoder : Node → Draft Encoding}
    (hencodes : Encodes target encoder) (h : encoder n e = .ok encoding e') :
    encoding.corrective
      = if target = "rotate_extrude" then some (.rotationX (-90.0)) else none := by
  cases hencodes with
  | projection =>
    obtain ⟨_, -, -, rfl⟩ := projection_ok h
    rfl
  | revolution =>
    obtain ⟨-, rfl⟩ := revolution_ok h
    rfl
  | union htag =>
    obtain ⟨-, rfl⟩ := plain_ok h
    have hother : target ≠ "rotate_extrude" := by
      rintro rfl
      exact absurd htag (by decide)
    rw [if_neg hother]
  | binary htag =>
    obtain ⟨-, rfl⟩ := plain_ok h
    have hother : target ≠ "rotate_extrude" := by
      rintro rfl
      exact absurd htag (by decide)
    rw [if_neg hother]
  | _ =>
    obtain ⟨-, rfl⟩ := plain_ok h
    rfl

end

end SolidExport.Shape
