/-
  What the standard map knows.

  Every tag that the standard map has an entry for makes geometry, passes it through, or is refused as
  soon as it is met.  The map keeps dimensions apart: a shape that is written has the dimension of the
  node that it is written for, offsets excepted (`operand_of_standard`), and a combination is never
  written for a generator (`combination_of_standard`).  Both are read off the list of all tags and
  targets that go together.
-/
import SolidExport.Emission

namespace SolidExport

namespace TagMap

theorem mem_of_find? {m : TagMap} {tag target : String} (h : m.find? tag = some target) :
    (tag, target) ∈ m.entries := by
  obtain ⟨front, back, hsplit, -⟩ := List.lookup_eq_some_iff.mp h
  rw [hsplit]
  exact List.mem_append_right front List.mem_cons_self

/-- A tag that makes no geometry, passes none through and is not refused is unknown to the standard
    map. -/
theorem find?_standard_eq_none {tag : String} (hgenerator : Dimension.ofGenerator? tag = none)
    (hpass : Dimension.passesThrough tag = false) (hsupported : Dimension.isUnsupported tag = false) :
    standard.find? tag = none := by
  have hknown : ∀ entry ∈ standard.entries, Dimension.ofGenerator? entry.1 ≠ none ∨
      Dimension.passesThrough entry.1 = true ∨ Dimension.isUnsupported entry.1 = true := by
    decide
  cases hfind : standard.find? tag with
  | none => rfl
  | some target =>
    rcases hknown (tag, target) (mem_of_find? hfind) with h | h | h
    · exact absurd hgenerator h
    · rw [hpass] at h; exact nomatch h
    · rw [hsupported] at h; exact nomatch h

end TagMap

/-! ## Targets and dimensions -/

/-- `combinationTags d` — the tags of the combinations of dimension `d`. -/
def combinationTags : Dimension → List String
  | .flat => ["union2d", "hull2d", "difference2d", "intersection2d", "minkowski2d"]
  | .solid => ["union3d", "hull3d", "difference3d", "intersection3d", "minkowski3d"]

/-- `operandTags d` — the tags of the shapes of dimension `d` that may be combined.  Offsets are not
    among them. -/
def operandTags : Dimension → List String
  | .flat => ["circle", "rectangle", "polygon", "projection2d"] ++ combinationTags .flat
  | .solid =>
    ["sphere", "cuboid", "cone", "polyhedron", "sweep", "rotate_extrude"] ++ combinationTags .solid

/-- The combinations of the two dimensions have different tags, so a tag tells the dimension. -/
theorem combinationTags_unique {tag : String} {d d' : Dimension} (h : tag ∈ combinationTags d)
    (h' : tag ∈ combinationTags d') : d = d' := by
  have hdisjoint : ∀ t ∈ combinationTags .flat, t ∉ combinationTags .solid := by decide
  cases d with
  | flat =>
    cases d' with
    | flat => rfl
    | solid => exact absurd h' (hdisjoint tag h)
  | solid =>
    cases d' with
    | flat => exact absurd h (hdisjoint tag h')
    | solid => rfl

namespace TagMap

/-- `standardTargets d` — the tags in the standard map that a node of dimension `d` can have, each
    with the targets that such a node can have.  A node with one operand only may have another
    one. -/
def standardTargets (d : Dimension) : List (String × String) :=
  (standard.entries.filter fun entry =>
    entry.2 != Template.notAvailable && (Dimension.ofGenerator? entry.1).getD d == d).flatMap
  fun entry => (Template.resolve? entry.2 (some d)).toList.flatMap fun resolved =>
    [(entry.1, resolved), (entry.1, loneOperandTarget resolved)]

variable {d : Dimension}

theorem mem_standardTargets {tag template resolved target : String}
    (hfind : standard.find? tag = some template) (havailable : template ≠ Template.notAvailable)
    (hdimension : ∀ d', Dimension.ofGenerator? tag = some d' → d' = d)
    (hresolved : Template.resolve? template (some d) = some resolved)
    (htarget : target = resolved ∨ target = loneOperandTarget resolved) :
    (tag, target) ∈ standardTargets d := by
  have hown : (Dimension.ofGenerator? tag).getD d = d := by
    cases hgenerator : Dimension.ofGenerator? tag with
    | none => rfl
    | some d' => exact hdimension d' hgenerator
  refine List.mem_flatMap.mpr ⟨(tag, template), ?_, ?_⟩
  · refine List.mem_filter.mpr ⟨mem_of_find? hfind, ?_⟩
    rw [Bool.and_eq_true]
    exact ⟨bne_iff_ne.mpr havailable, beq_iff_eq.mpr hown⟩
  · refine List.mem_flatMap.mpr ⟨resolved, Option.mem_toList.mpr hresolved, ?_⟩
    rcases htarget with rfl | rfl
    · exact List.mem_cons_self
    · exact List.mem_cons_of_mem _ List.mem_cons_self

/-- **The standard map keeps dimensions apart**: a node of dimension `d` is written as a shape of
    dimension `d`, if not as an offset. -/
theorem operand_of_standard :
    ∀ t ∈ standardTargets d, t.2 = "offset2d" ∨ t.2 ∈ operandTags d := by
  cases d <;> decide

/-- In the standard map a combination is the target of nodes of its dimension, and never of a
    generator. -/
theorem combination_of_standard : ∀ t ∈ standardTargets d, ∀ d', t.2 ∈ combinationTags d' →
    d' = d ∧ Dimension.ofGenerator? t.1 = none := by
  have htable : ∀ t ∈ standardTargets d, t.2 ∈ combinationTags .flat ++ combinationTags .solid →
      t.2 ∈ combinationTags d ∧ Dimension.ofGenerator? t.1 = none := by
    cases d <;> decide
  intro t ht d' htag
  have hcombination : t.2 ∈ combinationTags .flat ++ combinationTags .solid := by
    cases d' with
    | flat => exact List.mem_append_left _ htag
    | solid => exact List.mem_append_right _ htag
  obtain ⟨htag', hnone⟩ := htable t ht hcombination
  exact ⟨combinationTags_unique htag htag', hnone⟩

/-- In the standard map only projections are written as projections. -/
theorem projection_of_standard :
    ∀ t ∈ standardTargets d, t.2 = "projection2d" → t.1 = "projection" := by
  cases d <;> decide

end TagMap

end SolidExport
