/-
  Writing a tree changes nothing of it but transformations.

  `bare` is a tree without its transformations.  Whatever becomes of the writing, the tree that it
  leaves behind has the same bare tree as the one that it was given (`bareAll_emitNodes`), so every
  question that transformations have no part in has the same answer before and after.
-/
import SolidExport.Proofs.Emission.Frame
import SolidExport.Proofs.Tree

namespace SolidExport

namespace Node

/-! ## Trees without transformations -/

mutual

/-- `n.bare` — the tree `n` without its transformations, as it was read. -/
def bare : Node → Node
  | ⟨head, _, children⟩ => ⟨head, none, bareAll children⟩

/-- `bareAll ns` — the trees `ns` without their transformations. -/
def bareAll : List Node → List Node
  | [] => []
  | n :: ns => n.bare :: bareAll ns

end

theorem bareAll_append (ns ms : List Node) : bareAll (ns ++ ms) = bareAll ns ++ bareAll ms := by
  induction ns with
  | nil => rfl
  | cons n ns ih => rw [List.cons_append, bareAll, bareAll, ih, List.cons_append]

theorem bare_eq (n : Node) : n.bare = ⟨n.head, none, bareAll n.children⟩ := by
  obtain ⟨head, transform, children⟩ := n
  rfl

theorem allDummy_bareAll {ns : List Node} (h : ∀ c ∈ ns, c.bare.isDummy = c.isDummy) :
    allDummy (bareAll ns) = allDummy ns := by
  induction ns with
  | nil => rfl
  | cons n ns ih =>
    rw [bareAll, allDummy, allDummy, h n List.mem_cons_self,
      ih fun c hc => h c (List.mem_cons_of_mem _ hc)]

/-- A node is a dummy exactly if its bare tree is: transformations have no part in it. -/
theorem isDummy_bare (n : Node) : n.bare.isDummy = n.isDummy := by
  induction n using Node.induction with
  | step n ih =>
    rw [bare_eq, isDummy_eq, isDummy_eq n]
    dsimp only
    rw [allDummy_bareAll ih]
    rfl

end Node

/-! ## Writing -/

section

variable {o : EmitOptions}

/-- A node is left as it was, or has the transformation of its frame and its children as they are
    left. -/
theorem nodes_emitNode (o : EmitOptions) (n : Node) :
    (emitNode o n).nodes = [n] ∨
      ∃ transform, (emitNode o n).nodes = [⟨n.head, transform, (emitNodes o n.children).nodes⟩] := by
  cases hdummy : n.isDummy with
  | true => exact Or.inl (by rw [emitNode_dummy o hdummy]; rfl)
  | false =>
    rw [emitNode_of_not_dummy hdummy]
    split
    · exact Or.inl rfl
    · exact Or.inl rfl
    · split
      · exact Or.inl rfl
      · split
        · exact Or.inl rfl
        · exact Or.inr ⟨_, rfl⟩

/-- Writing a node leaves one node, whatever comes of it. -/
theorem exists_node_emitNode (o : EmitOptions) (n : Node) : ∃ left, (emitNode o n).nodes = [left] := by
  rcases nodes_emitNode o n with hsame | ⟨transform, hnew⟩
  · exact ⟨n, hsame⟩
  · exact ⟨_, hnew⟩

/-- Writing some nodes without a failure leaves what writing each of them leaves, in its place. -/
theorem getElem?_nodes {ns : List Node} (h : (emitNodes o ns).failure = none) {i : Nat} {n : Node}
    (hi : ns[i]? = some n) :
    ∃ left, (emitNode o n).nodes = [left] ∧ (emitNodes o ns).nodes[i]? = some left := by
  induction ns generalizing i with
  | nil => cases hi
  | cons m ns ih =>
    obtain ⟨left, hleft⟩ := exists_node_emitNode o m
    rw [emitNodes] at h ⊢
    cases hfailure : (emitNode o m).failure with
    | some f => simp only [hfailure] at h; cases h
    | none =>
      simp only [hfailure] at h ⊢
      rw [Emission.append, hleft]
      cases i with
      | zero =>
        injection hi with hi
        subst hi
        exact ⟨left, hleft, rfl⟩
      | succ i => exact ih h hi

/-- Some trees are left as they were, transformations apart, if each of them is.  Those behind a
    failure are not even looked at. -/
theorem bareAll_emitNodes_of_each {ns : List Node}
    (h : ∀ n ∈ ns, Node.bareAll (emitNode o n).nodes = [n.bare]) :
    Node.bareAll (emitNodes o ns).nodes = Node.bareAll ns := by
  induction ns with
  | nil => rfl
  | cons n ns ih =>
    have hfirst := h n List.mem_cons_self
    have hrest := ih fun m hm => h m (List.mem_cons_of_mem _ hm)
    rw [emitNodes]
    split
    · rw [Node.bareAll_append, hfirst]
      rfl
    · rw [Emission.append, Node.bareAll_append, hfirst, hrest]
      rfl

/-- **A tree is left as it was**, transformations apart.  By induction on the tree. -/
theorem bareAll_emitNode (o : EmitOptions) (n : Node) :
    Node.bareAll (emitNode o n).nodes = [n.bare] := by
  induction n using Node.induction with
  | step n ih =>
    rcases nodes_emitNode o n with hsame | ⟨transform, hnew⟩
    · rw [hsame]
      rfl
    · rw [hnew, Node.bareAll, Node.bareAll, Node.bare_eq, Node.bare_eq n]
      dsimp only
      rw [bareAll_emitNodes_of_each ih]

theorem bareAll_emitNodes (o : EmitOptions) (ns : List Node) :
    Node.bareAll (emitNodes o ns).nodes = Node.bareAll ns :=
  bareAll_emitNodes_of_each fun n _ => bareAll_emitNode o n

/-- Nodes are all dummies after they were written exactly if they were before. -/
theorem allDummy_emitNodes (o : EmitOptions) (ns : List Node) :
    Node.allDummy (emitNodes o ns).nodes = Node.allDummy ns := by
  have hbare : ∀ ms : List Node, Node.allDummy (Node.bareAll ms) = Node.allDummy ms :=
    fun ms => Node.allDummy_bareAll fun m _ => m.isDummy_bare
  rw [← hbare, bareAll_emitNodes, hbare]

end

end SolidExport
