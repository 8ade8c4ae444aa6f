/-
  Trees without dummies.

  `prune` takes every dummy out of a tree, whatever its depth; the top of the tree stays.  What is
  left are the nodes that are no dummies, in the same order (`nodesBelow_prune`).

  Nothing that is asked of a node sees the difference: whether it is a dummy, how many operands it
  has, its dimension, and whether its operands agree in theirs.  Each question is asked of a list of
  children by a walk of its own, so for each there is one lemma about a list whose members give the
  same answers with and without their dummies, and one induction on the tree.
-/
import SolidExport.Proofs.Node.Dimension

namespace SolidExport.Node

/-! ## Taking out dummies -/

mutual

/-- `n.prune` — the tree `n` without the dummies below its top.  The top stays, even if it is
    one. -/
def prune : Node → Node
  | ⟨head, transform, children⟩ => ⟨head, transform, pruneAll children⟩

/-- `pruneAll ns` — the trees `ns` without the dummies among them and below them. -/
def pruneAll : List Node → List Node
  | [] => []
  | n :: ns => if n.isDummy then pruneAll ns else n.prune :: pruneAll ns

end

@[simp]
theorem prune_head (n : Node) : n.prune.head = n.head := by
  obtain ⟨head, transform, children⟩ := n
  rfl

@[simp]
theorem prune_tag (n : Node) : n.prune.tag = n.tag := congrArg Head.tag n.prune_head

@[simp]
theorem prune_line (n : Node) : n.prune.line = n.line :=
  congrArg (fun head => head.statement.line) n.prune_head

@[simp]
theorem prune_location (n : Node) : n.prune.location = n.location := by
  obtain ⟨head, transform, children⟩ := n
  rfl

@[simp]
theorem prune_fault (n : Node) (cause : Cause) : n.prune.fault cause = n.fault cause :=
  congrArg (Fault.located · cause) n.prune_location

@[simp]
theorem prune_transform (n : Node) : n.prune.transform = n.transform := by
  obtain ⟨head, transform, children⟩ := n
  rfl

@[simp]
theorem prune_children (n : Node) : n.prune.children = pruneAll n.children := by
  obtain ⟨head, transform, children⟩ := n
  rfl

theorem prune_eq (n : Node) : n.prune = ⟨n.head, n.transform, pruneAll n.children⟩ := by
  obtain ⟨head, transform, children⟩ := n
  rfl

theorem pruneAll_of_dummy {n : Node} (h : n.isDummy = true) (ns : List Node) :
    pruneAll (n :: ns) = pruneAll ns := by
  rw [pruneAll, if_pos h]

theorem pruneAll_of_not_dummy {n : Node} (h : n.isDummy = false) (ns : List Node) :
    pruneAll (n :: ns) = n.prune :: pruneAll ns := by
  rw [pruneAll, if_neg (by rw [h]; exact Bool.false_ne_true)]

/-- Pruning keeps the nodes that are no dummies, each without the dummies below it. -/
theorem pruneAll_eq (ns : List Node) :
    pruneAll ns = (ns.filter (!·.isDummy)).map prune := by
  induction ns with
  | nil => rfl
  | cons n ns ih =>
    cases h : n.isDummy with
    | true => rw [pruneAll_of_dummy h, ih, List.filter_cons_of_neg (by rw [h]; decide)]
    | false =>
      rw [pruneAll_of_not_dummy h, ih, List.filter_cons_of_pos (by rw [h]; decide), List.map_cons]

theorem pruneAll_append (ns ms : List Node) : pruneAll (ns ++ ms) = pruneAll ns ++ pruneAll ms := by
  rw [pruneAll_eq, pruneAll_eq, pruneAll_eq, List.filter_append, List.map_append]

/-! ## Being a dummy -/

/-- Nodes are all dummies exactly if pruning leaves none, or dummies only. -/
theorem allDummy_pruneAll {ns : List Node} (h : ∀ c ∈ ns, c.prune.isDummy = c.isDummy) :
    allDummy (pruneAll ns) = allDummy ns := by
  induction ns with
  | nil => rfl
  | cons n ns ih =>
    have htail := ih fun c hc => h c (List.mem_cons_of_mem _ hc)
    cases hn : n.isDummy with
    | true => rw [pruneAll_of_dummy hn, htail, allDummy, hn, Bool.true_and]
    | false => rw [pruneAll_of_not_dummy hn, allDummy, allDummy, h n List.mem_cons_self, hn]; rfl

/-- **A dummy stays a dummy when it is pruned, and no other node becomes one.** -/
theorem isDummy_prune (n : Node) : n.prune.isDummy = n.isDummy := by
  induction n using Node.induction with
  | step n ih =>
    rw [isDummy_eq, isDummy_eq, prune_tag, prune_children, allDummy_pruneAll ih]

/-- What pruning leaves among some nodes is no dummy. -/
theorem isDummy_of_mem_pruneAll {ns : List Node} {c : Node} (h : c ∈ pruneAll ns) :
    c.isDummy = false := by
  rw [pruneAll_eq] at h
  obtain ⟨m, hm, rfl⟩ := List.mem_map.mp h
  rw [isDummy_prune]
  exact Bool.not_eq_true' _ ▸ (List.mem_filter.mp hm).2

/-- A node has as many operands after it is pruned as before, since dummies are none. -/
theorem countChildren_prune (n : Node) : n.prune.countChildren = n.countChildren := by
  have hall : (pruneAll n.children).filter (!·.isDummy) = pruneAll n.children := by
    refine List.filter_eq_self.mpr fun c hc => ?_
    rw [isDummy_of_mem_pruneAll hc]
    rfl
  rw [countChildren, prune_children, hall, pruneAll_eq, List.length_map]
  rfl

/-! ## Dimensions -/

theorem ownDimension_prune (n : Node) : n.prune.ownDimension = n.ownDimension := by
  rw [ownDimension, ownDimension, prune_tag, prune_fault]

theorem firstDimension_pruneAll {ns : List Node} (h : ∀ c ∈ ns, c.prune.dimension = c.dimension) :
    firstDimension (pruneAll ns) = firstDimension ns := by
  induction ns with
  | nil => rfl
  | cons n ns ih =>
    have htail := ih fun c hc => h c (List.mem_cons_of_mem _ hc)
    cases hn : n.isDummy with
    | true => rw [pruneAll_of_dummy hn, firstDimension, htail, if_pos hn]
    | false =>
      rw [pruneAll_of_not_dummy hn, firstDimension, firstDimension, isDummy_prune, hn,
        ownDimension_prune, prune_tag, h n List.mem_cons_self, htail]

/-- **The dimension of a node does not depend on dummies**, nor does the fault if it has none. -/
theorem dimension_prune (n : Node) : n.prune.dimension = n.dimension := by
  induction n using Node.induction with
  | step n ih =>
    rw [dimension_eq, dimension_eq, ownDimension_prune, prune_children, firstDimension_pruneAll ih]

theorem secondDimension_pruneAll (seen : Option Dimension) (ns : List Node) :
    Shape.secondDimension seen (pruneAll ns) = Shape.secondDimension seen ns := by
  induction ns generalizing seen with
  | nil => rfl
  | cons n ns ih =>
    cases hn : n.isDummy with
    | true => rw [pruneAll_of_dummy hn, Shape.secondDimension, ih, if_pos hn]
    | false =>
      rw [pruneAll_of_not_dummy hn, Shape.secondDimension, Shape.secondDimension, isDummy_prune, hn,
        dimension_prune]
      simp only [ih]

/-- Dummies neither mix the dimensions of operands nor hide that they are mixed. -/
theorem checkUniform_prune (n : Node) (target : String) :
    Shape.checkUniform n.prune target = Shape.checkUniform n target := by
  rw [Shape.checkUniform, Shape.checkUniform, prune_children, secondDimension_pruneAll, prune_tag]
  simp only [prune_fault]

/-! ## What is left -/

/-- `n.nodesBelow` — the nodes below `n`, outer nodes first. -/
def nodesBelow (n : Node) : List Node := n.descendants.map Prod.snd

theorem nodesBelow_eq (n : Node) : n.nodesBelow = n.children.flatMap fun c => c :: c.nodesBelow := by
  have hchild : ∀ c : Node × Nat,
      (([c.2], c.1) :: c.1.descendants.map fun d => (c.2 :: d.1, d.2)).map Prod.snd
        = c.1 :: c.1.nodesBelow := by
    intro c
    rw [List.map_cons, List.map_map]
    rfl
  calc n.nodesBelow
      = n.children.zipIdx.flatMap fun c => c.1 :: c.1.nodesBelow := by
        rw [nodesBelow, descendants_eq, List.map_flatMap]
        simp only [hchild]
    _ = (n.children.zipIdx.map Prod.fst).flatMap fun c => c :: c.nodesBelow := by
        rw [List.flatMap_map]
    _ = n.children.flatMap fun c => c :: c.nodesBelow := by rw [List.zipIdx_map_fst]

/-- All that lies below a dummy are dummies. -/
theorem isDummy_of_mem_nodesBelow {n m : Node} (h : n.isDummy = true) (hm : m ∈ n.nodesBelow) :
    m.isDummy = true := by
  obtain ⟨⟨p, m'⟩, hp, rfl⟩ := List.mem_map.mp hm
  exact isDummy_of_at? h (mem_descendants.mp hp).2

/-- **What is left below a node** are the nodes that are no dummies, in the same order, each without
    its own dummies. -/
theorem nodesBelow_prune (n : Node) :
    n.prune.nodesBelow = (n.nodesBelow.filter (!·.isDummy)).map prune := by
  induction n using Node.induction with
  | step n ih =>
    rw [nodesBelow_eq, nodesBelow_eq, prune_children]
    generalize n.children = ns at ih
    induction ns with
    | nil => rfl
    | cons c cs ihcs =>
      have hcs := ihcs fun m hm => ih m (List.mem_cons_of_mem _ hm)
      rw [List.flatMap_cons, List.filter_append, List.map_append, ← hcs]
      cases hc : c.isDummy with
      | true =>
        -- a dummy goes with everything in it
        have hnone : (c :: c.nodesBelow).filter (!·.isDummy) = [] := by
          refine List.filter_eq_nil_iff.mpr fun m hm => ?_
          have hdummy : m.isDummy = true := by
            rcases List.mem_cons.mp hm with rfl | hm
            · exact hc
            · exact isDummy_of_mem_nodesBelow hc hm
          rw [hdummy]
          decide
        rw [pruneAll_of_dummy hc, hnone]
        rfl
      | false =>
        rw [pruneAll_of_not_dummy hc, List.flatMap_cons, ih c List.mem_cons_self,
          List.filter_cons_of_pos (by rw [hc]; decide), List.map_cons]

end SolidExport.Node
