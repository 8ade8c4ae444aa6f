/-
  Writing never reads a transformation.

  What is asked of a node, its dimension, the number of its operands and whether they agree, has the
  same answer on the bare tree.  So trees that differ in transformations alone are written alike, also
  when the writing fails half-way (`output_emitNode`, `output_emitRoot`).

  Writing a tree that was written before leaves it as it is (`nodes_emitNode_again`): a transformation
  is put in the place of the one before, never on top of it.
-/
import SolidExport.Proofs.Emission.Dummies
import SolidExport.Proofs.Emission.Correspondence

namespace SolidExport

namespace Node

/-! ## Questions -/

theorem bareAll_eq (ns : List Node) : bareAll ns = ns.map bare := by
  induction ns with
  | nil => rfl
  | cons n ns ih => rw [bareAll, ih, List.map_cons]

@[simp]
theorem bare_head (n : Node) : n.bare.head = n.head := by rw [bare_eq]

@[simp]
theorem bare_tag (n : Node) : n.bare.tag = n.tag := congrArg Head.tag n.bare_head

@[simp]
theorem bare_children (n : Node) : n.bare.children = n.children.map bare := by
  rw [bare_eq, bareAll_eq]

@[simp]
theorem bare_fault (n : Node) (cause : Cause) : n.bare.fault cause = n.fault cause := by
  rw [bare_eq]
  rfl

@[simp]
theorem bare_bare (n : Node) : n.bare.bare = n.bare := by
  induction n using Node.induction with
  | step n ih =>
    have hchildren : (n.children.map bare).map bare = n.children.map bare := by
      rw [List.map_map]
      exact List.map_congr_left ih
    rw [bare_eq n, bare_eq, bareAll_eq, bareAll_eq, hchildren]

/-- A bare tree has as many operands, so the target of a node is the same. -/
theorem countChildren_bare (n : Node) : n.bare.countChildren = n.countChildren := by
  rw [countChildren, bare_children, List.filter_map, List.length_map, countChildren]
  exact congrArg List.length (List.filter_congr fun c _ => by
    rw [Function.comp_apply, isDummy_bare])

theorem ownDimension_bare (n : Node) : n.bare.ownDimension = n.ownDimension := by
  rw [ownDimension, ownDimension, bare_tag, bare_fault]

theorem firstDimension_bare {ns : List Node} (h : ∀ c ∈ ns, c.bare.dimension = c.dimension) :
    firstDimension (ns.map bare) = firstDimension ns := by
  induction ns with
  | nil => rfl
  | cons n ns ih =>
    rw [List.map_cons, firstDimension, firstDimension, isDummy_bare, ownDimension_bare, bare_tag,
      h n List.mem_cons_self, ih fun c hc => h c (List.mem_cons_of_mem _ hc)]

/-- **The dimension of a node** does not depend on transformations: the search looks at tags
    only. -/
theorem dimension_bare (n : Node) : n.bare.dimension = n.dimension := by
  induction n using Node.induction with
  | step n ih =>
    rw [dimension_eq, dimension_eq n, ownDimension_bare, bare_children, firstDimension_bare ih]

theorem secondDimension_bare (seen : Option Dimension) (ns : List Node) :
    Shape.secondDimension seen (ns.map bare) = Shape.secondDimension seen ns := by
  induction ns generalizing seen with
  | nil => rfl
  | cons n ns ih =>
    rw [List.map_cons, Shape.secondDimension, Shape.secondDimension, isDummy_bare, dimension_bare]
    simp only [ih]

theorem checkUniform_bare (n : Node) (target : String) :
    Shape.checkUniform n.bare target = Shape.checkUniform n target := by
  rw [Shape.checkUniform, Shape.checkUniform, bare_children, secondDimension_bare, bare_tag]
  simp only [bare_fault]

theorem explicitTransform_bare (n : Node) : n.bare.explicitTransform = n.explicitTransform := by
  rw [bare_eq]
  rfl

theorem plan_bare (o : EmitOptions) (n : Node) : n.bare.plan o = n.plan o := by
  unfold plan planEmpty
  simp only [bare_tag, bare_fault, dimension_bare, countChildren_bare]

end Node

/-! ## Nodes that differ in transformations -/

/-- `e.output` — what is seen of the emission `e` from outside: all but the nodes it leaves. -/
def Emission.output (e : Emission) : List Element × List Warning × Option Failure :=
  (e.elements, e.warnings, e.failure)

section

variable {o : EmitOptions} {n m : Node}

/-- **All that writing a node reads of it** is in the bare tree: a node that differs in
    transformations alone is written by the same plan, matrix and encoder. -/
theorem emitNode_of_bare_eq (h : n.bare = m.bare) (hdummy : n.isDummy = false) :
    emitNode o m = match n.plan o with
      | .error f => .refused m (.fault f)
      | .ok .drop => ⟨[m], [], [.emptyShape n.line n.tag], none⟩
      | .ok (.encode target encoder) =>
        match n.explicitTransform with
        | .error f => .refused m (.fault (f.locate n.location))
        | .ok explicit =>
          match encoder n (.new target) with
          | .error f element => ⟨[m], [element], [], some (f.locate n.location)⟩
          | .ok encoding element =>
            finishNode m element encoding explicit (emitNodes o m.children) := by
  have hhead : m.head = n.head := by rw [← Node.bare_head, ← h, Node.bare_head]
  have htag : m.tag = n.tag := congrArg Head.tag hhead
  have hline : m.line = n.line := congrArg (·.statement.line) hhead
  have hlocation : m.location = n.location := by
    rw [Node.location, Node.location, hline, htag, hhead]
  have hplan : m.plan o = n.plan o := by rw [← Node.plan_bare, ← h, Node.plan_bare]
  have hexplicit : m.explicitTransform = n.explicitTransform := by
    rw [← Node.explicitTransform_bare, ← h, Node.explicitTransform_bare]
  have hm : m.isDummy = false := by rw [← Node.isDummy_bare, ← h, Node.isDummy_bare, hdummy]
  rw [emitNode_of_not_dummy hm, hplan, hexplicit, hlocation, hline, htag]
  cases hp : n.plan o with
  | error f => rfl
  | ok plan =>
    cases plan with
    | drop => rfl
    | encode target encoder =>
      have hencoder : encoder m = encoder n := by
        refine Shape.encoder_congr (Shape.encodes_of_encoder? (Node.plan_encode hp).2) hhead ?_ ?_
        · rw [← Node.countChildren_bare, ← h, Node.countChildren_bare]
        · intro t
          rw [← Node.checkUniform_bare, ← h, Node.checkUniform_bare]
      cases n.explicitTransform with
      | error f => rfl
      | ok explicit =>
        cases hencode : encoder n (.new target) with
        | error f element => simp only [hencoder, hencode]
        | ok encoding element => simp only [hencoder, hencode]

theorem Emission.output_eq {a b : Emission} : a.output = b.output ↔
    a.elements = b.elements ∧ a.warnings = b.warnings ∧ a.failure = b.failure := by
  simp only [output, Prod.mk.injEq]

/-- **The step lemma.**  A node and its bare tree are written alike if their children are. -/
theorem output_emitNode_of_children
    (hchildren : (emitNodes o n.bare.children).output = (emitNodes o n.children).output) :
    (emitNode o n.bare).output = (emitNode o n).output := by
  cases hdummy : n.isDummy with
  | true =>
    rw [emitNode_dummy o hdummy, emitNode_dummy o (n.isDummy_bare.trans hdummy)]
    rfl
  | false =>
    rw [emitNode_of_bare_eq n.bare_bare.symm hdummy, emitNode_of_not_dummy hdummy]
    cases n.plan o with
    | error f => rfl
    | ok plan =>
      cases plan with
      | drop => rfl
      | encode target encoder =>
        cases n.explicitTransform with
        | error f => rfl
        | ok explicit =>
          dsimp only
          cases encoder n (.new target) with
          | error f element => rfl
          | ok encoding element =>
            obtain ⟨helements, hwarnings, hfailure⟩ := Emission.output_eq.mp hchildren
            simp only [finishNode, Emission.output, helements, hwarnings, hfailure]

/-- **The run lemma.**  Some nodes are written like their bare trees if each is: they fail at the
    same node, and what is written before it is the same. -/
theorem output_emitNodes_of_each {ns : List Node}
    (h : ∀ c ∈ ns, (emitNode o c.bare).output = (emitNode o c).output) :
    (emitNodes o (ns.map Node.bare)).output = (emitNodes o ns).output := by
  induction ns with
  | nil => rfl
  | cons n ns ih =>
    have hfirst := h n List.mem_cons_self
    have hrest := ih fun c hc => h c (List.mem_cons_of_mem _ hc)
    obtain ⟨helements, hwarnings, hfailure⟩ := Emission.output_eq.mp hfirst
    rw [List.map_cons, emitNodes, emitNodes, hfailure]
    cases (emitNode o n).failure with
    | some f => exact Emission.output_eq.mpr ⟨helements, hwarnings, rfl⟩
    | none =>
      obtain ⟨helements', hwarnings', hfailure'⟩ := Emission.output_eq.mp hrest
      simp only [Emission.append, Emission.output, helements, hwarnings, helements', hwarnings',
        hfailure']

/-- **A tree is written like its bare tree.**  By induction on the tree; the transformations that
    are written come from parameters. -/
theorem output_emitNode (o : EmitOptions) (n : Node) :
    (emitNode o n.bare).output = (emitNode o n).output := by
  induction n using Node.induction with
  | step n ih =>
    refine output_emitNode_of_children ?_
    rw [Node.bare_children]
    exact output_emitNodes_of_each ih

/-- Two trees that differ in transformations alone are written alike. -/
theorem output_of_bare_eq (h : n.bare = m.bare) : (emitNode o n).output = (emitNode o m).output := by
  rw [← output_emitNode, h, output_emitNode]

/-! ## Writing again -/

/-- What is left of a node by writing it has the same bare tree. -/
theorem bare_of_nodes {left : Node} (h : (emitNode o n).nodes = [left]) : left.bare = n.bare := by
  have hsame := bareAll_emitNode o n
  rw [h] at hsame
  exact List.head_eq_of_cons_eq hsame

/-- A node that was written is left as it is by writing it again, if its children are: the
    transformation that it has is the one that it is given. -/
theorem nodes_again_of_children {left : Node} (hleft : (emitNode o n).nodes = [left])
    (hchildren : (emitNodes o (emitNodes o n.children).nodes).nodes = (emitNodes o n.children).nodes) :
    (emitNode o left).nodes = [left] := by
  cases hdummy : n.isDummy with
  | true =>
    rw [emitNode_dummy o hdummy] at hleft
    injection hleft with hleft
    subst hleft
    rw [emitNode_dummy o hdummy]
    rfl
  | false =>
    have hbare : n.bare = left.bare := (bare_of_nodes hleft).symm
    rw [emitNode_of_not_dummy hdummy] at hleft
    rw [emitNode_of_bare_eq hbare hdummy]
    cases hp : n.plan o with
    | error f => rfl
    | ok plan =>
      cases plan with
      | drop => rfl
      | encode target encoder =>
        cases hx : n.explicitTransform with
        | error f => rfl
        | ok explicit =>
          dsimp only
          cases he : encoder n (.new target) with
          | error f element => rfl
          | ok encoding element =>
            simp only [hp, hx, he] at hleft
            injection hleft with hleft
            subst hleft
            dsimp only [finishNode]
            rw [hchildren]
            -- the transformation, if there is one, takes the place of itself
            cases Matrix.compose encoding.corrective explicit with
            | none => rfl
            | some t => rfl

/-- Writing nodes in a row leaves the first as writing it leaves it, and the others as they are if
    that one fails. -/
theorem nodes_emitNodes_cons (o : EmitOptions) (n : Node) (ns : List Node) :
    (emitNodes o (n :: ns)).nodes = (emitNode o n).nodes ++ match (emitNode o n).failure with
      | some _ => ns
      | none => (emitNodes o ns).nodes := by
  rw [emitNodes]
  cases (emitNode o n).failure with
  | some f => rfl
  | none => rfl

/-- Nodes in a row that were written are left as they are by writing them again, if each is. -/
theorem nodes_again_of_each {ns : List Node}
    (h : ∀ n ∈ ns, ∀ left, (emitNode o n).nodes = [left] → (emitNode o left).nodes = [left]) :
    (emitNodes o (emitNodes o ns).nodes).nodes = (emitNodes o ns).nodes := by
  induction ns with
  | nil => rfl
  | cons n ns ih =>
    have hrest := ih fun m hm => h m (List.mem_cons_of_mem _ hm)
    obtain ⟨left, hleft⟩ := exists_node_emitNode o n
    have hagain := h n List.mem_cons_self left hleft
    -- the first node fails again, or succeeds again
    have hfailure : (emitNode o left).failure = (emitNode o n).failure :=
      (Emission.output_eq.mp (output_of_bare_eq (bare_of_nodes hleft))).2.2
    rw [nodes_emitNodes_cons, hleft, List.singleton_append, nodes_emitNodes_cons, hagain, hfailure,
      List.singleton_append]
    cases (emitNode o n).failure with
    | some f => rfl
    | none => exact congrArg (left :: ·) hrest

/-- **Writing a tree again leaves it as it is.**  By induction on the tree. -/
theorem nodes_emitNode_again {left : Node} (hleft : (emitNode o n).nodes = [left]) :
    (emitNode o left).nodes = [left] := by
  induction n using Node.induction generalizing left with
  | step n ih => exact nodes_again_of_children hleft (nodes_again_of_each fun c hc _ => ih c hc)

end

/-! ## The root -/

theorem rootTarget_bare (n : Node) : rootTarget n.bare = rootTarget n := by
  unfold rootTarget
  simp only [Node.dimension_bare, Node.bare_fault, Node.checkUniform_bare]

/-- **A root is written like its bare tree**, so a document does not depend on what was assigned or
    written before. -/
theorem output_emitRoot (o : EmitOptions) (n : Node) :
    (emitRoot o n.bare).output = (emitRoot o n).output := by
  have hchildren : (emitNodes o (n.children.map Node.bare)).output = (emitNodes o n.children).output :=
    output_emitNodes_of_each fun c _ => output_emitNode o c
  obtain ⟨helements, hwarnings, hfailure⟩ := Emission.output_eq.mp hchildren
  unfold emitRoot
  rw [rootTarget_bare, Node.bare_children]
  cases rootTarget n with
  | error f => rfl
  | ok target => simp only [Emission.output, helements, hwarnings, hfailure]

/-- Writing a root leaves it as it was, transformations apart, and leaves it so when it is done
    again. -/
theorem exists_left_emitRoot (o : EmitOptions) (n : Node) :
    ∃ left, (emitRoot o n).nodes = [left] ∧ left.bare = n.bare ∧ (emitRoot o left).nodes = [left] := by
  cases ht : rootTarget n with
  | error f =>
    have hnodes : (emitRoot o n).nodes = [n] := by
      unfold emitRoot
      rw [ht]
      rfl
    exact ⟨n, hnodes, rfl, hnodes⟩
  | ok target =>
    have hbare : Node.bare ⟨n.head, n.transform, (emitNodes o n.children).nodes⟩ = n.bare := by
      rw [Node.bare_eq, Node.bare_eq n]
      dsimp only
      rw [bareAll_emitNodes]
    refine ⟨⟨n.head, n.transform, (emitNodes o n.children).nodes⟩, ?_, hbare, ?_⟩
    · unfold emitRoot
      rw [ht]
    · have htarget : rootTarget ⟨n.head, n.transform, (emitNodes o n.children).nodes⟩ = .ok target := by
        rw [← rootTarget_bare, hbare, rootTarget_bare, ht]
      unfold emitRoot
      rw [htarget]
      dsimp only
      rw [nodes_again_of_each fun c _ left hleft => nodes_emitNode_again hleft]

end SolidExport
