/-
  Where each node of a tree stands in the output.

  A node below the root is kept when it and every node between it and the root has geometry.  If
  writing the tree succeeds, each kept node has one place in the output (`place`), no two the same,
  and the children of a node stand in its container, behind what the encoder put there and the
  transformation, in the order of the source.  So nothing is lost, doubled or moved.

  Both trees are addressed by paths of child indexes.  A place is computed by walking down a path:
  at each node the container is entered and the siblings with geometry before the next node are
  counted (`rank`).  That the count is right is `getElem?_elements`; the rest is induction on the
  path.
-/
import SolidExport.Proofs.Emission.Frame
import SolidExport.Proofs.Tree

namespace SolidExport

namespace Node

/-! ## Kept nodes -/

/-- `n.hasGeometry` — whether the node `n` is no dummy and has a dimension.  These are the nodes
    that elements are written for. -/
def hasGeometry (n : Node) : Bool :=
  !n.isDummy && match n.dimension with
    | .ok (some _) => true
    | _ => false

/-- `n.isEmptyShape` — whether the node `n` is no dummy and has no dimension.  Such a node is
    dropped with a warning, or refused. -/
def isEmptyShape (n : Node) : Bool :=
  !n.isDummy && match n.dimension with
    | .ok none => true
    | _ => false

/-- `n.keeps p` — whether every node on the path `p` down from `n`, the start apart, is there and
    has geometry. -/
def keeps (n : Node) : List Nat → Bool
  | [] => true
  | i :: p => match n.children[i]? with
    | some c => c.hasGeometry && c.keeps p
    | none => false

/-- `root.Kept p` — the node at the path `p` is strictly below the root, and it and all its
    ancestors below the root have geometry.  These nodes are in the document. -/
def Kept (root : Node) (p : List Nat) : Prop := p ≠ [] ∧ root.keeps p = true

/-- `n.keptChildren` — the indexes of the children of `n` with geometry, in order. -/
def keptChildren (n : Node) : List Nat :=
  (List.range n.children.length).filter fun i => (n.children[i]?).any hasGeometry

theorem hasGeometry_iff {n : Node} :
    n.hasGeometry = true ↔ n.isDummy = false ∧ ∃ d, n.dimension = .ok (some d) := by
  unfold hasGeometry
  cases n.isDummy with
  | true => simp
  | false =>
    cases n.dimension with
    | error f => simp
    | ok dimension => cases dimension <;> simp

theorem isEmptyShape_iff {n : Node} :
    n.isEmptyShape = true ↔ n.isDummy = false ∧ n.dimension = .ok none := by
  unfold isEmptyShape
  cases n.isDummy with
  | true => simp
  | false =>
    cases n.dimension with
    | error f => simp
    | ok dimension => cases dimension <;> simp

/-- One step of a path whose nodes are kept: the child `i` is there, has geometry, and keeps the
    rest of the path. -/
theorem keeps_cons {n : Node} {i : Nat} {p : List Nat} :
    n.keeps (i :: p) = true ↔
      ∃ c, n.children[i]? = some c ∧ c.hasGeometry = true ∧ c.keeps p = true := by
  rw [keeps]
  cases n.children[i]? with
  | none => simp
  | some c => simp [Bool.and_eq_true]

/-! ## Counting siblings -/

/-- `rank ns i` — how many of the first `i` of the nodes `ns` have geometry.  So many elements stand
    in front of the one of node `i`. -/
def rank (ns : List Node) (i : Nat) : Nat := (ns.take i).countP hasGeometry

/-- A node with geometry raises the count of those before by one, and any other node does not. -/
theorem rank_succ {ns : List Node} {i : Nat} {c : Node} (h : ns[i]? = some c) :
    rank ns (i + 1) = rank ns i + if c.hasGeometry then 1 else 0 := by
  unfold rank
  rw [List.take_add_one, h, List.countP_append]
  simp [List.countP_cons]

theorem rank_mono {ns : List Node} {i j : Nat} (h : i ≤ j) : rank ns i ≤ rank ns j :=
  (List.take_sublist_take_left h).countP_le

/-- Two nodes with geometry are told apart by the count of those before them. -/
theorem rank_injective {ns : List Node} {i j : Nat} {c d : Node} (hi : ns[i]? = some c)
    (hj : ns[j]? = some d) (hc : c.hasGeometry = true) (hd : d.hasGeometry = true)
    (h : rank ns i = rank ns j) : i = j := by
  have hsi := rank_succ hi
  have hsj := rank_succ hj
  rw [if_pos hc] at hsi
  rw [if_pos hd] at hsj
  rcases Nat.lt_trichotomy i j with hlt | heq | hgt
  · have hle : rank ns (i + 1) ≤ rank ns j := rank_mono hlt
    omega
  · exact heq
  · have hle : rank ns (j + 1) ≤ rank ns i := rank_mono hgt
    omega

/-- Among the first `k` nodes, those with geometry are counted without gaps: their counts are
    `0, 1, …`. -/
theorem map_rank_filter_range (ns : List Node) {k : Nat} (hk : k ≤ ns.length) :
    ((List.range k).filter fun i => (ns[i]?).any hasGeometry).map (rank ns)
      = List.range (rank ns k) := by
  induction k with
  | zero => rfl
  | succ k ih =>
    have hget : ns[k]? = some ns[k] := List.getElem?_eq_getElem hk
    rw [List.range_succ, List.filter_append, List.map_append, ih (by omega), rank_succ hget]
    cases hg : ns[k].hasGeometry with
    | true =>
      rw [if_pos rfl, List.range_succ]
      simp [hget, hg]
    | false => simp [hget, hg]

/-- The children with geometry are as many as the count behind the last child says. -/
theorem length_keptChildren (n : Node) :
    n.keptChildren.length = rank n.children n.children.length := by
  have h := congrArg List.length (map_rank_filter_range n.children (Nat.le_refl _))
  rw [List.length_map, List.length_range] at h
  exact h

/-- The children with geometry, in order, have the counts `0, 1, …` without gaps. -/
theorem map_rank_keptChildren (n : Node) :
    n.keptChildren.map (rank n.children) = List.range n.keptChildren.length := by
  rw [length_keptChildren]
  exact map_rank_filter_range n.children (Nat.le_refl _)

end Node

/-! ## The elements of siblings -/

section Siblings

variable {o : EmitOptions}

/-- A node that is written gives one element if it has geometry, and none otherwise. -/
theorem length_elements_of_ok {n : Node} (h : (emitNode o n).failure = none) :
    (emitNode o n).elements.length = if n.hasGeometry then 1 else 0 := by
  rcases emitNode_ok h with ⟨hdummy, he⟩ | ⟨-, hd, -, he⟩ | ⟨d, f, hdummy, hd, -, -, he, -⟩
  · have hg : n.hasGeometry = false := by rw [Node.hasGeometry, hdummy]; rfl
    rw [he, hg]
    rfl
  · have hg : n.hasGeometry = false := by rw [Node.hasGeometry, hd, Bool.and_false]
    rw [he, hg]
    rfl
  · rw [he, if_pos (Node.hasGeometry_iff.mpr ⟨hdummy, d, hd⟩)]
    rfl

/-- The element of a node with geometry is its frame, filled with what its children give. -/
theorem elements_of_geometry {n : Node} (h : (emitNode o n).failure = none)
    (hg : n.hasGeometry = true) :
    ∃ f, n.frame? o = some f ∧ (emitNodes o n.children).failure = none ∧
      (emitNode o n).elements = [f.fill (emitNodes o n.children).elements] := by
  obtain ⟨hdummy, d, hd⟩ := Node.hasGeometry_iff.mp hg
  rcases emitNode_ok h with ⟨hdummy', -⟩ | ⟨-, hd', -⟩ | ⟨d', f, -, -, hf, hc, he, -⟩
  · rw [hdummy] at hdummy'; exact nomatch hdummy'
  · rw [hd] at hd'; exact nomatch hd'
  · exact ⟨f, hf, hc, he⟩

/-- Writing siblings puts the element of each one with geometry behind those of the ones before. -/
theorem getElem?_elements {ns : List Node} {i : Nat} {c : Node}
    (h : (emitNodes o ns).failure = none) (hi : ns[i]? = some c) (hc : c.hasGeometry = true) :
    (emitNodes o ns).elements[Node.rank ns i]? = (emitNode o c).elements[0]? := by
  obtain ⟨hall, hel, -⟩ := emitNodes_ok h
  rw [hel]
  clear h hel
  induction ns generalizing i with
  | nil => exact nomatch hi
  | cons n ns ih =>
    have hlen := length_elements_of_ok (hall n List.mem_cons_self)
    rw [List.flatMap_cons]
    cases i with
    | zero =>
      injection hi with hi
      subst hi
      rw [if_pos hc] at hlen
      exact List.getElem?_append_left (by rw [hlen]; exact Nat.zero_lt_one)
    | succ i =>
      have hrank : Node.rank (n :: ns) (i + 1)
          = Node.rank ns i + (emitNode o n).elements.length := by
        rw [hlen]
        exact List.countP_cons
      rw [hrank, List.getElem?_append_right (Nat.le_add_left _ _), Nat.add_sub_cancel]
      exact ih hi fun m hm => hall m (List.mem_cons_of_mem _ hm)

/-- The children of a node give as many elements as they have nodes with geometry among them. -/
theorem length_elements {n : Node} (h : (emitNodes o n.children).failure = none) :
    (emitNodes o n.children).elements.length = n.keptChildren.length := by
  obtain ⟨hall, hel, -⟩ := emitNodes_ok h
  rw [hel, Node.length_keptChildren, Node.rank, List.take_length]
  clear h hel
  generalize n.children = ns at hall
  induction ns with
  | nil => rfl
  | cons n ns ih =>
    rw [List.flatMap_cons, List.length_append, ih fun m hm => hall m (List.mem_cons_of_mem _ hm),
      length_elements_of_ok (hall n List.mem_cons_self), List.countP_cons, Nat.add_comm]

end Siblings

/-! ## Places -/

namespace Frame

/-- `f.offset` — how many elements stand in the container before the operands. -/
def offset (f : Frame) : Nat := f.lead.length + f.block.length

/-- The operands of a filled frame stand in its container from `offset` on: operand `k` is found `k`
    places further. -/
theorem at?_fill (f : Frame) (es : List Element) (k : Nat) (q : List Nat) :
    (f.fill es).at? (f.holder ++ (f.offset + k) :: q) = (es[k]?).bind (·.at? q) := by
  have hlen : (f.lead ++ f.block).length = f.offset := List.length_append
  rw [Element.at?_append, at?_fill_holder]
  show ((f.lead ++ (f.block ++ es))[f.offset + k]?).bind (·.at? q) = _
  rw [← List.append_assoc, ← hlen, List.getElem?_append_right (Nat.le_add_right _ _),
    Nat.add_sub_cancel_left]

end Frame

/-- `placeFrom o n holder offset p` — the place of what lies at the path `p` below `n`, seen from an
    element in which the operands of `n` stand in the container at `holder` from `offset` on. -/
def placeFrom (o : EmitOptions) (n : Node) (holder : List Nat) (offset : Nat) :
    List Nat → List Nat
  | [] => []
  | i :: p =>
    holder ++ (offset + Node.rank n.children i) :: match n.children[i]? with
      | some c => match c.frame? o with
        | some f => placeFrom o c f.holder f.offset p
        | none => []
      | none => []

/-- `place o root p` — the place of what lies at the path `p` below the root, seen from the element
    of the root, which has nothing in front of its operands. -/
def place (o : EmitOptions) (root : Node) : List Nat → List Nat := placeFrom o root [] 0

section Places

variable {o : EmitOptions}

/-- The place of a path, one step down: where the child `i` stands, and from there the place of the
    rest. -/
theorem placeFrom_cons {n c : Node} {f : Frame} {i : Nat} (hi : n.children[i]? = some c)
    (hf : c.frame? o = some f) (holder : List Nat) (offset : Nat) (p : List Nat) :
    placeFrom o n holder offset (i :: p)
      = holder ++ (offset + Node.rank n.children i) :: placeFrom o c f.holder f.offset p := by
  rw [placeFrom, hi]
  simp only [hf]

/-- The place of a child does not depend on what lies below it, and so not on whether it has a
    frame. -/
theorem placeFrom_singleton (n : Node) (holder : List Nat) (offset i : Nat) :
    placeFrom o n holder offset [i] = holder ++ [offset + Node.rank n.children i] := by
  rw [placeFrom]
  cases n.children[i]? with
  | none => rfl
  | some c => cases hf : c.frame? o <;> simp [hf, placeFrom]

/-- A kept child has a frame, its own children are written without failure, and it stands where its
    count says. -/
theorem frame_of_child {n c : Node} {i : Nat} (h : (emitNodes o n.children).failure = none)
    (hi : n.children[i]? = some c) (hc : c.hasGeometry = true) :
    ∃ f, c.frame? o = some f ∧ (emitNodes o c.children).failure = none ∧
      (emitNodes o n.children).elements[Node.rank n.children i]?
        = some (f.fill (emitNodes o c.children).elements) := by
  obtain ⟨f, hf, hcc, he⟩ :=
    elements_of_geometry ((emitNodes_ok h).1 c (List.mem_of_getElem? hi)) hc
  refine ⟨f, hf, hcc, ?_⟩
  rw [getElem?_elements h hi hc, he]
  rfl

/-- Every element of a written row of children is the filled frame of the kept child with that
    rank. -/
theorem exists_child_of_getElem? {n : Node} (h : (emitNodes o n.children).failure = none) {k : Nat}
    {s : Element} (hs : (emitNodes o n.children).elements[k]? = some s) :
    ∃ i c f, n.children[i]? = some c ∧ c.hasGeometry = true ∧ Node.rank n.children i = k ∧
      c.frame? o = some f ∧ (emitNodes o c.children).failure = none ∧
      s = f.fill (emitNodes o c.children).elements := by
  have hk : k ∈ n.keptChildren.map (Node.rank n.children) := by
    rw [Node.map_rank_keptChildren, List.mem_range, ← length_elements h]
    exact (List.getElem?_eq_some_iff.mp hs).1
  obtain ⟨i, hi, hrank⟩ := List.mem_map.mp hk
  have hany : (n.children[i]?).any Node.hasGeometry = true := (List.mem_filter.mp hi).2
  obtain ⟨c, hc, hgeometry⟩ := (Option.any_eq_true _ _).mp hany
  obtain ⟨f, hf, hchildren, helement⟩ := frame_of_child h hc hgeometry
  rw [hrank, hs] at helement
  exact ⟨i, c, f, hc, hgeometry, hrank, hf, hchildren, Option.some.inj helement⟩

theorem exists_child_of_mem_elements {n : Node} (h : (emitNodes o n.children).failure = none)
    {s : Element} (hs : s ∈ (emitNodes o n.children).elements) :
    ∃ c f, c ∈ n.children ∧ c.hasGeometry = true ∧ c.frame? o = some f ∧
      s = f.fill (emitNodes o c.children).elements := by
  obtain ⟨k, hk⟩ := List.mem_iff_getElem?.mp hs
  obtain ⟨i, c, f, hi, hgeometry, -, hf, -, hfill⟩ := exists_child_of_getElem? h hk
  exact ⟨c, f, List.mem_of_getElem? hi, hgeometry, hf, hfill⟩

/-- **Every kept node is where `placeFrom` says.**  Induction on the path: one step enters the
    container of the node and passes the elements before the next one. -/
theorem at?_placeFrom {n : Node} {e : Element} {holder : List Nat} {offset : Nat} {p : List Nat}
    (h : (emitNodes o n.children).failure = none)
    (he : ∀ k q, e.at? (holder ++ (offset + k) :: q)
      = ((emitNodes o n.children).elements[k]?).bind (·.at? q))
    (hp : n.Kept p) :
    ∃ m f, n.at? p = some m ∧ m.frame? o = some f ∧ (emitNodes o m.children).failure = none ∧
      e.at? (placeFrom o n holder offset p) = some (f.fill (emitNodes o m.children).elements) := by
  induction p generalizing n e holder offset with
  | nil => exact absurd rfl hp.1
  | cons i p ih =>
    obtain ⟨c, hi, hc, hkeeps⟩ := Node.keeps_cons.mp hp.2
    obtain ⟨f, hf, hcc, hel⟩ := frame_of_child h hi hc
    rw [placeFrom_cons hi hf, he, hel, Node.at?_cons hi]
    cases p with
    | nil => exact ⟨c, f, rfl, hf, hcc, rfl⟩
    | cons j p =>
      exact ih hcc (f.at?_fill (emitNodes o c.children).elements) ⟨List.cons_ne_nil _ _, hkeeps⟩

/-- The place of a child of a kept node is one step further than that of the node. -/
theorem placeFrom_append {n m : Node} {f : Frame} {holder : List Nat} {offset : Nat}
    {p : List Nat} (h : (emitNodes o n.children).failure = none) (hp : n.Kept p)
    (hm : n.at? p = some m) (hf : m.frame? o = some f) (i : Nat) :
    placeFrom o n holder offset (p ++ [i])
      = placeFrom o n holder offset p ++ (f.holder ++ [f.offset + Node.rank m.children i]) := by
  induction p generalizing n holder offset with
  | nil => exact absurd rfl hp.1
  | cons j p ih =>
    obtain ⟨c, hj, hc, hkeeps⟩ := Node.keeps_cons.mp hp.2
    obtain ⟨g, hg, hcc, -⟩ := frame_of_child h hj hc
    rw [Node.at?_cons hj] at hm
    rw [List.cons_append, placeFrom_cons hj hg, placeFrom_cons hj hg, List.append_assoc,
      List.cons_append]
    cases p with
    | nil =>
      injection hm with hm
      subst hm
      rw [hf] at hg
      injection hg with hg
      subst hg
      rw [List.nil_append, placeFrom_singleton]
      rfl
    | cons k p => rw [ih hcc ⟨List.cons_ne_nil _ _, hkeeps⟩ hm]

/-- **No two kept nodes share a place.**  By induction on the two paths, which part where their
    counts do. -/
theorem placeFrom_injective {n : Node} {holder : List Nat} {offset : Nat} {p q : List Nat}
    (h : (emitNodes o n.children).failure = none) (hp : n.keeps p = true) (hq : n.keeps q = true)
    (heq : placeFrom o n holder offset p = placeFrom o n holder offset q) : p = q := by
  induction p generalizing n holder offset q with
  | nil =>
    cases q with
    | nil => rfl
    | cons j q => rw [placeFrom, placeFrom] at heq; simp at heq
  | cons i p ih =>
    cases q with
    | nil => rw [placeFrom, placeFrom] at heq; simp at heq
    | cons j q =>
      obtain ⟨c, hi, hc, hkp⟩ := Node.keeps_cons.mp hp
      obtain ⟨d, hj, hd, hkq⟩ := Node.keeps_cons.mp hq
      obtain ⟨f, hf, hcc, -⟩ := frame_of_child h hi hc
      obtain ⟨g, hg, -, -⟩ := frame_of_child h hj hd
      rw [placeFrom_cons hi hf, placeFrom_cons hj hg] at heq
      injection List.append_cancel_left heq with hrank htail
      obtain rfl : i = j := Node.rank_injective hi hj hc hd (Nat.add_left_cancel hrank)
      rw [hi] at hj
      injection hj with hj
      subst hj
      rw [hf] at hg
      injection hg with hg
      subst hg
      rw [ih hcc hkp hkq htail]

/-- Every kept node is where `place` says, in the element of the root: there stands its filled
    frame. -/
theorem at?_place {root : Node} {p : List Nat} (target : String)
    (h : (emitNodes o root.children).failure = none) (hp : root.Kept p) :
    ∃ m f, root.at? p = some m ∧ m.frame? o = some f ∧ (emitNodes o m.children).failure = none ∧
      Element.at? ⟨target, [], (emitNodes o root.children).elements⟩ (place o root p)
        = some (f.fill (emitNodes o m.children).elements) := by
  refine at?_placeFrom h (fun k q => ?_) hp
  rw [Nat.zero_add]
  rfl

end Places

end SolidExport
