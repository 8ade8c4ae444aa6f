/-
  What holds of everything in the blocks and matrices of a document.

  A part is a list, which has no attributes, or a leaf, whose fields are finite numbers with names that
  can be read.  So what holds of each such element holds throughout a matrix and throughout the blocks
  of a shape (`OfParts`); the control points of a sweep are the one exception and have to be looked at.
  What holds of the shapes too holds throughout a shape (`IsShape.throughout`).
-/
import SolidExport.Proofs.Double.Order
import SolidExport.Proofs.Element.Xml
import SolidExport.Proofs.Schema.Basic
import SolidExport.Proofs.Tree

namespace SolidExport.Schema

open Element (Throughout)

/-- `f.isFinite` — whether the field `f` admits no number that is not finite. -/
def Field.isFinite : Field → Bool
  | .number => false
  | _ => true

/-- The fields of a control point: its place and its tangent.  They are computed, so nothing keeps
    them finite. -/
def pointFields : List (String × Field) :=
  [("x", .number), ("y", .number), ("z", .number), ("vx", .number), ("vy", .number),
    ("vz", .number)]

/-- `OfParts P` — the property `P` holds of every list of parts, and of every part with finite
    fields.  Such a property holds of all parts but control points. -/
structure OfParts (P : Element → Prop) : Prop where
  list : ∀ {e : Element}, e.tag ∈ partTags → e.attributes = [] → P e
  leaf : ∀ {e : Element} {fields : List (String × Field)}, e.tag ∈ partTags →
    Conforms fields e.attributes → fields.all (·.2.isFinite) = true →
    fields.all (Xml.isName ·.1) = true → P e

variable {P : Element → Prop}

theorem IsLeaf.throughout {tag : String} {fields : List (String × Field)} {e : Element}
    (h : IsLeaf tag fields e) (hP : e.tag = tag → Conforms fields e.attributes → P e) :
    Throughout P e := by
  refine .mk (hP h.tag_eq h.attributes) ?_
  rw [h.children_eq]
  exact fun c hc => absurd hc List.not_mem_nil

theorem IsLeaf.throughout_of_parts {tag : String} {fields : List (String × Field)} {e : Element}
    (h : IsLeaf tag fields e) (hP : OfParts P) (htag : tag ∈ partTags)
    (hfields : fields.all (·.2.isFinite) = true) (hnames : fields.all (Xml.isName ·.1) = true) :
    Throughout P e :=
  h.throughout fun htag' hattributes => hP.leaf (htag' ▸ htag) hattributes hfields hnames

theorem IsList.throughout {tag : String} {least : Nat} {Item : Element → Prop} {e : Element}
    (h : IsList tag least Item e) (hP : OfParts P) (htag : tag ∈ partTags)
    (hitem : ∀ c, Item c → Throughout P c) : Throughout P e :=
  .mk (hP.list (h.tag_eq ▸ htag) h.attributes_eq) fun c hc => hitem c (h.items c hc)

/-- A corner of a face has what parts have: its index is a finite number, since it lies between
    two. -/
theorem IsCorner.throughout {count : Nat} {e : Element} (h : IsCorner count e) (hP : OfParts P) :
    Throughout P e := by
  obtain ⟨index, rfl, hlo, hhi, -⟩ := h
  have hleaf : IsLeaf "fv" [("index", .finite)] ⟨"fv", [("index", .number index)], []⟩ :=
    ⟨rfl, .cons ⟨rfl, Double.isFinite_of_between hlo hhi⟩ .nil, rfl⟩
  exact hleaf.throughout_of_parts hP (by decide) rfl rfl

theorem IsMatrix.throughout {e : Element} (h : IsMatrix e) (hP : OfParts P) : Throughout P e :=
  h.rows.throughout hP (by decide) fun _ hc => hc.throughout_of_parts hP (by decide) rfl rfl

/-- **What holds of the parts holds throughout the blocks of a shape.**  Control points have to be
    asked for, since their numbers need not be finite. -/
theorem HasBlocks.throughout {tag : String} {blocks : List Element} (h : HasBlocks tag blocks)
    (hP : OfParts P)
    (hpoint : ∀ e, tag = "sweep" → e.tag = "cpoint" → Conforms pointFields e.attributes → P e) :
    ∀ b ∈ blocks, Throughout P b := by
  cases h with
  | none htag => exact fun b hb => absurd hb List.not_mem_nil
  | polygon hvertices =>
    intro b hb
    rw [List.mem_singleton.mp hb]
    exact hvertices.throughout hP (by decide) fun _ hc => hc.throughout_of_parts hP (by decide) rfl rfl
  | sweep hpath =>
    intro b hb
    rw [List.mem_singleton.mp hb]
    exact hpath.throughout hP (by decide) fun c hc => hc.throughout (hpoint c rfl)
  | polyhedron hvertices hfaces =>
    intro b hb
    rcases List.mem_cons.mp hb with rfl | hb
    · exact hvertices.throughout hP (by decide) fun _ hc =>
        hc.throughout_of_parts hP (by decide) rfl rfl
    · rw [List.mem_singleton.mp hb]
      exact hfaces.throughout hP (by decide) fun _ hface =>
        hface.throughout hP (by decide) fun _ hcorner => hcorner.throughout hP

/-- **What holds of the parts and of the shapes holds throughout a shape.**  By induction on the
    shape. -/
theorem IsShape.throughout {e : Element} (h : IsShape e) (hP : OfParts P)
    (hpoint : ∀ e, e.tag = "cpoint" → Conforms pointFields e.attributes → P e)
    (hshape : ∀ e, e.tag ∈ shapeTags → Conforms (fields e.tag) e.attributes → P e) :
    Throughout P e := by
  induction h with
  | own htag hattributes _ hblocks _ hmatrix _ ih =>
    refine .mk (hshape _ htag hattributes) ?_
    intro c hc
    rcases List.mem_append.mp hc with hc | hc
    · exact hblocks.throughout hP (fun e _ => hpoint e) c hc
    · rcases List.mem_append.mp hc with hc | hc
      · exact (hmatrix c hc).throughout hP
      · exact ih c hc
  | @cut slab matrix shapes hslab _ hmatrix _ ih =>
    obtain ⟨hcuboid, hnone, hattributes⟩ := hslab
    refine .mk (hshape ⟨"projection2d", [], _⟩ (by decide : "projection2d" ∈ shapeTags) .nil) ?_
    intro c hc
    rw [List.mem_singleton.mp hc]
    refine .mk (hshape ⟨"intersection3d", [], _⟩ (by decide : "intersection3d" ∈ shapeTags) .nil) ?_
    intro d hd
    rcases List.mem_cons.mp hd with rfl | hd
    · refine (Throughout.iff_here hnone).mpr (hshape d ?_ (hcuboid ▸ hattributes))
      rw [hcuboid]
      decide
    · rcases List.mem_append.mp hd with hd | hd
      · exact (hmatrix d hd).throughout hP
      · exact ih d hd

end SolidExport.Schema
