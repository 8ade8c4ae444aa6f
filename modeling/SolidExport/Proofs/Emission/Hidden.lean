/-
  What is dropped with a shape without geometry.

  A shape is dropped if no dimension is found for it, and the search for a dimension does not look
  into every node.  So a generator can be dropped, but only behind a node that the search passes over:
  one that the standard map does not know (`generators_of_dropped_hidden`).
-/
import SolidExport.Proofs.Emission.Correspondence
import SolidExport.Proofs.Node.Dimension
import SolidExport.Proofs.TagMap

namespace SolidExport

variable {o : EmitOptions}

namespace Node

/-- A node without a dimension holds a generator only below a node that the standard map does not
    know: any other node would pass the geometry through. -/
theorem unknown_above_generator {n m : Node} {q : List Nat} (h : n.dimension = .ok none)
    (hm : n.at? q = some m) (hgenerator : (Dimension.ofGenerator? m.tag).isSome = true) :
    ∃ r k, r ≠ [] ∧ r <+: q ∧ r ≠ q ∧ n.at? r = some k ∧
      Dimension.passesThrough k.tag = false ∧ TagMap.standard.find? k.tag = none := by
  obtain ⟨r, k, hne, hprefix, hproper, hk, hpass, hnone, hsupported⟩ :=
    hidden_of_dimension_none h hm hgenerator
  exact ⟨r, k, hne, hprefix, hproper, hk, hpass,
    TagMap.find?_standard_eq_none hnone hpass hsupported⟩

/-- A node without a dimension, in which all nodes are known to the standard map, holds no
    generator. -/
theorem no_generator_of_known {n m : Node} {q : List Nat} (h : n.dimension = .ok none)
    (hknown : ∀ r k, r ≠ [] → n.at? r = some k → TagMap.standard.find? k.tag ≠ none)
    (hm : n.at? q = some m) : Dimension.ofGenerator? m.tag = none := by
  cases hgenerator : Dimension.ofGenerator? m.tag with
  | none => rfl
  | some d =>
    obtain ⟨r, k, hne, -, -, hk, -, hunknown⟩ :=
      unknown_above_generator h hm (by rw [hgenerator]; rfl)
    exact absurd hunknown (hknown r k hne hk)

end Node

/-- **A generator is dropped only behind an unknown node.**  The warnings name the dropped shapes.
    Above each generator in one of them, and below the shape itself, is a node that geometry does
    not pass through and that the standard map does not know.  So a dropped shape in which every
    node is known holds no generator. -/
theorem generators_of_dropped_hidden {root : Node} (h : (emitRoot o root).failure = none) :
    (emitRoot o root).warnings = root.dropped.map (fun d => .emptyShape d.2.line d.2.tag) ∧
    ∀ p n, (p, n) ∈ root.dropped →
      (∀ q m, n.at? q = some m → (Dimension.ofGenerator? m.tag).isSome = true →
        ∃ r k, r ≠ [] ∧ r <+: q ∧ r ≠ q ∧ n.at? r = some k ∧
          Dimension.passesThrough k.tag = false ∧ TagMap.standard.find? k.tag = none) ∧
      ((∀ r k, r ≠ [] → n.at? r = some k → TagMap.standard.find? k.tag ≠ none) →
        ∀ q m, n.at? q = some m → Dimension.ofGenerator? m.tag = none) := by
  obtain ⟨d, -, hchildren, -, hwarnings⟩ := emitRoot_ok h
  refine ⟨hwarnings.trans (warnings_of_ok hchildren), fun p n hn => ?_⟩
  have hnone : n.dimension = .ok none := (Node.mem_dropped.mp hn).2.2.2.2
  constructor
  · intro q m hm hgenerator
    exact Node.unknown_above_generator hnone hm hgenerator
  · intro hknown q m hm
    exact Node.no_generator_of_known hnone hknown hm

/-- A color around an unknown node with a cube. -/
def hiddenColor : Node :=
  .sample "color" [] [.sample "foo" [] [.sample "cube" [("size", .number 1 1.0 "1")] []]]

/-- A cube, behind a color with a cube that is hidden. -/
def hiddenCube : Node :=
  .root [hiddenColor, .sample "cube" [("size", .number 1 1.0 "1")] []]

theorem emitRoot_hiddenCube : (emitRoot (.sample true) hiddenCube).failure = none := by
  decide +kernel

theorem hiddenColor_dropped : ([0], hiddenColor) ∈ hiddenCube.dropped :=
  Node.mem_dropped.mpr ⟨List.cons_ne_nil _ _, rfl, rfl, rfl, rfl⟩

theorem generators_of_dropped_hidden_hiddenCube :
    (emitRoot (.sample true) hiddenCube).failure = none ∧
    ([0], hiddenColor) ∈ hiddenCube.dropped ∧
    ∃ r k, r ≠ [] ∧ r <+: [0, 0] ∧ r ≠ [0, 0] ∧ hiddenColor.at? r = some k ∧
      Dimension.passesThrough k.tag = false ∧ TagMap.standard.find? k.tag = none :=
  ⟨emitRoot_hiddenCube, hiddenColor_dropped,
    ((generators_of_dropped_hidden emitRoot_hiddenCube).2 [0] hiddenColor hiddenColor_dropped).1
      [0, 0] _ rfl rfl⟩

/-- A generator can be dropped: behind an unknown node it is not found, and the color around both
    counts as empty. -/
theorem generator_dropped :
    (emitRoot (.sample true) hiddenCube).failure = none ∧
    ∃ p n q m, (p, n) ∈ hiddenCube.dropped ∧ n.at? q = some m ∧
      (Dimension.ofGenerator? m.tag).isSome = true :=
  ⟨emitRoot_hiddenCube, [0], hiddenColor, [0, 0], _, hiddenColor_dropped, rfl, rfl⟩

end SolidExport
