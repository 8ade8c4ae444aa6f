/-
  Dummies leave no trace in what is written.

  A tree and the same tree without its dummies are written alike: the same elements, the same
  warnings, the same failure, and the nodes that both have get the same transformations, also when
  the writing fails half-way (`emitRoot_prune`).

  Writing reads little of a node: its head, its dimension, how many operands it has and whether they
  agree (`Shape.encoder_congr`).  None of this depends on dummies, so it is one step for a node that
  is written, and for a list of nodes the dummies in it are passed over.
-/
import SolidExport.Proofs.Emission.Nodes
import SolidExport.Proofs.Node.Prune
import SolidExport.Proofs.Shape.Encoder

namespace SolidExport

/-! ## What is read of a node -/

/-- **All that an encoder reads of a node**: its head, how many operands it has, and whether they
    agree in their dimension. -/
theorem Shape.encoder_congr {trig : Trig} {target : String} {encoder : Node → Draft Encoding}
    (h : Encodes target encoder) {n m : Node} (hhead : n.head = m.head)
    (hcount : n.countChildren = m.countChildren)
    (huniform : ∀ t, checkUniform n t = checkUniform m t) : encoder n = encoder m := by
  obtain ⟨head, transform, children⟩ := n
  obtain ⟨head', transform', children'⟩ := m
  obtain rfl : head = head' := hhead
  cases h with
  | union _ =>
    have hunion : union target ⟨head, transform, children⟩
        = union target ⟨head, transform', children'⟩ := by
      rw [union, union, huniform]
    rw [plain, plain, hunion]
  | binary _ =>
    have hbinary : binary target ⟨head, transform, children⟩
        = binary target ⟨head, transform', children'⟩ := by
      rw [binary, binary, hcount, huniform]
      rfl
    rw [plain, plain, hbinary]
  | _ => rfl

namespace Node

variable (o : EmitOptions) (n : Node)

theorem explicitTransform_prune : n.prune.explicitTransform = n.explicitTransform := by
  obtain ⟨head, transform, children⟩ := n
  rfl

theorem plan_prune : n.prune.plan o = n.plan o := by
  unfold plan planEmpty
  simp only [prune_tag, prune_fault, dimension_prune, countChildren_prune]

end Node

/-! ## Nodes -/

/-- `e.prune` — the emission `e` without the dummies among the nodes it leaves.  What it writes is
    the same. -/
def Emission.prune (e : Emission) : Emission := { e with nodes := Node.pruneAll e.nodes }

section

variable {o : EmitOptions}

theorem pruneAll_singleton {n : Node} (h : n.isDummy = false) : Node.pruneAll [n] = [n.prune] :=
  Node.pruneAll_of_not_dummy h []

/-- A node is no dummy after it was written if it was none before, whatever transformation it was
    given. -/
theorem isDummy_written (o : EmitOptions) {n : Node} (h : n.isDummy = false)
    (transform : Option Matrix) :
    Node.isDummy ⟨n.head, transform, (emitNodes o n.children).nodes⟩ = false := by
  rw [← h, Node.isDummy_eq, Node.isDummy_eq n]
  dsimp only
  rw [allDummy_emitNodes]
  rfl

/-- **The step lemma.**  A node is written without its dummies as it is with them, if its children
    are. -/
theorem emitNode_prune_of_children {n : Node} (h : n.isDummy = false)
    (hchildren : emitNodes o (Node.pruneAll n.children) = (emitNodes o n.children).prune) :
    emitNode o n.prune = (emitNode o n).prune := by
  have hprune : n.prune.isDummy = false := n.isDummy_prune.trans h
  rw [emitNode_of_not_dummy hprune, emitNode_of_not_dummy h, Node.plan_prune,
    Node.explicitTransform_prune, Node.prune_location, Node.prune_children, hchildren]
  cases hplan : n.plan o with
  | error f =>
    simp only [Emission.refused, Emission.prune, pruneAll_singleton h]
  | ok plan =>
    cases plan with
    | drop => simp only [Emission.prune, pruneAll_singleton h, Node.prune_line, Node.prune_tag]
    | encode target encoder =>
      have hencodes := Shape.encodes_of_encoder? (Node.plan_encode hplan).2
      have hencoder : encoder n.prune = encoder n :=
        Shape.encoder_congr hencodes n.prune_head n.countChildren_prune n.checkUniform_prune
      cases hexplicit : n.explicitTransform with
      | error f => simp only [Emission.refused, Emission.prune, pruneAll_singleton h]
      | ok explicit =>
        dsimp only
        rw [hencoder]
        cases hencode : encoder n (.new target) with
        | error f element => simp only [Emission.prune, pruneAll_singleton h]
        | ok encoding element =>
          simp only [finishNode, Emission.prune, pruneAll_singleton (isDummy_written o h _),
            Node.prune_eq]

/-- **The run lemma.**  Without the dummies among them, some nodes leave what they leave with them,
    but for the dummies.  It is enough that each does that is no dummy. -/
theorem emitNodes_pruneAll_of_each {ns : List Node}
    (h : ∀ n ∈ ns, n.isDummy = false → emitNode o n.prune = (emitNode o n).prune) :
    emitNodes o (Node.pruneAll ns) = (emitNodes o ns).prune := by
  induction ns with
  | nil => rfl
  | cons n ns ih =>
    have hrest := ih fun m hm => h m (List.mem_cons_of_mem _ hm)
    cases hn : n.isDummy with
    | true =>
      rw [Node.pruneAll_of_dummy hn, hrest, emitNodes, emitNode_dummy o hn]
      simp only [Emission.silent, Emission.append, Emission.prune, List.singleton_append,
        List.nil_append, Node.pruneAll_of_dummy hn]
    | false =>
      have hfirst := h n List.mem_cons_self hn
      have hfailure : (emitNode o n.prune).failure = (emitNode o n).failure := by rw [hfirst]; rfl
      rw [Node.pruneAll_of_not_dummy hn, emitNodes, emitNodes, hfailure, hrest, hfirst]
      cases (emitNode o n).failure with
      | some f => simp only [Emission.prune, Node.pruneAll_append]
      | none => simp only [Emission.append, Emission.prune, Node.pruneAll_append]

theorem emitNode_prune (o : EmitOptions) {n : Node} (h : n.isDummy = false) :
    emitNode o n.prune = (emitNode o n).prune := by
  induction n using Node.induction with
  | step n ih => exact emitNode_prune_of_children h (emitNodes_pruneAll_of_each ih)

theorem emitNodes_pruneAll (o : EmitOptions) (ns : List Node) :
    emitNodes o (Node.pruneAll ns) = (emitNodes o ns).prune :=
  emitNodes_pruneAll_of_each fun _ _ h => emitNode_prune o h

end

/-! ## The root -/

theorem rootTarget_prune (n : Node) : rootTarget n.prune = rootTarget n := by
  unfold rootTarget
  simp only [Node.dimension_prune, Node.prune_fault, Node.checkUniform_prune]

/-- **Dummies are invisible.**  Without its dummies a tree has the nodes that are none, in the same
    order, each with its head and its transformation; their dimensions and the numbers of their
    operands are the same.  Writing it gives the same elements, warnings and failure, and leaves the
    same transformations on these nodes. -/
theorem emitRoot_prune (o : EmitOptions) (root : Node) :
    root.prune.nodesBelow = (root.nodesBelow.filter (!·.isDummy)).map Node.prune ∧
    (∀ n : Node, n.prune.head = n.head ∧ n.prune.transform = n.transform ∧
      n.prune.dimension = n.dimension ∧ n.prune.countChildren = n.countChildren) ∧
    (emitRoot o root.prune).elements = (emitRoot o root).elements ∧
    (emitRoot o root.prune).warnings = (emitRoot o root).warnings ∧
    (emitRoot o root.prune).failure = (emitRoot o root).failure ∧
    (emitRoot o root.prune).nodes = (emitRoot o root).nodes.map Node.prune := by
  refine ⟨root.nodesBelow_prune, fun n => ⟨n.prune_head, n.prune_transform, n.dimension_prune,
    n.countChildren_prune⟩, ?_⟩
  unfold emitRoot
  rw [rootTarget_prune, Node.prune_children, emitNodes_pruneAll]
  cases rootTarget root with
  | error f => exact ⟨rfl, rfl, rfl, rfl⟩
  | ok target =>
    obtain ⟨head, transform, children⟩ := root
    exact ⟨rfl, rfl, rfl, rfl⟩

end SolidExport
