/-
  Trees of nodes and trees of elements: induction, paths and the listing of what lies below.

  Both trees hang their children on a list, so induction on them is "true of a tree if true of each
  of its children" (`Node.induction`, `Element.induction`).  `Element.Throughout` is what holds of
  everything in an element.

  `descendants` lists what lies strictly below a node, each with the path that leads to it, outer
  nodes first and siblings in order.  It holds each path to a node once (`mem_descendants`,
  `descendants_sorted`).
-/
import SolidExport.Element.Basic
import SolidExport.Node.Basic

namespace SolidExport

namespace Node

/-! ## Nodes -/

/-- Induction on a tree of nodes: a property holds of every node if it holds of a node whenever it
    holds of each of its children. -/
@[elab_as_elim]
theorem induction {motive : Node → Prop}
    (step : ∀ n : Node, (∀ c ∈ n.children, motive c) → motive n) (n : Node) : motive n := by
  obtain ⟨head, transform, children⟩ := n
  refine step _ fun c hc => ?_
  have hlt : sizeOf c < sizeOf (Node.mk head transform children) := by
    have h : sizeOf c < sizeOf children := List.sizeOf_lt_of_mem hc
    simp only [Node.mk.sizeOf_spec]
    omega
  exact induction step c
termination_by sizeOf n

/-- A path that begins with the index of a child goes on in that child. -/
theorem at?_cons {n c : Node} {i : Nat} (h : n.children[i]? = some c) (p : List Nat) :
    n.at? (i :: p) = c.at? p := by
  show (n.children[i]?).bind (·.at? p) = _
  rw [h]
  rfl

/-- A path that leads somewhere goes through a child, and leads there from it. -/
theorem at?_cons_eq_some {n m : Node} {i : Nat} {p : List Nat} :
    n.at? (i :: p) = some m ↔ ∃ c, n.children[i]? = some c ∧ c.at? p = some m :=
  Option.bind_eq_some_iff

theorem isDummy_eq (n : Node) : n.isDummy = (n.tag == groupTag && allDummy n.children) := by
  obtain ⟨head, transform, children⟩ := n
  rw [isDummy]
  rfl

/-- The children of a dummy are dummies. -/
theorem isDummy_of_mem {n c : Node} (h : n.isDummy = true) (hc : c ∈ n.children) :
    c.isDummy = true := by
  rw [isDummy_eq, Bool.and_eq_true] at h
  have hall := h.2
  clear h
  generalize n.children = children at hc hall
  induction children with
  | nil => exact absurd hc List.not_mem_nil
  | cons k ks ih =>
    rw [allDummy, Bool.and_eq_true] at hall
    rcases List.mem_cons.mp hc with rfl | hc
    · exact hall.1
    · exact ih hc hall.2

/-- All that lies in a dummy is a dummy, itself included. -/
theorem isDummy_of_at? {n m : Node} {p : List Nat} (h : n.isDummy = true) (hp : n.at? p = some m) :
    m.isDummy = true := by
  induction p generalizing n with
  | nil => injection hp with hp; subst hp; exact h
  | cons i p ih =>
    obtain ⟨c, hi, hp⟩ := at?_cons_eq_some.mp hp
    exact ih (isDummy_of_mem h (List.mem_of_getElem? hi)) hp

mutual

/-- `n.descendants` — what lies below the node `n`, with the paths to it, outer nodes first. -/
def descendants : Node → List (List Nat × Node)
  | ⟨_, _, children⟩ => descendantsFrom 0 children

/-- `descendantsFrom i ns` — the nodes `ns`, the first of which has index `i`, and what lies below
    them, with the paths to it from above. -/
def descendantsFrom (i : Nat) : List Node → List (List Nat × Node)
  | [] => []
  | n :: ns => (([i], n) :: n.descendants.map fun d => (i :: d.1, d.2)) ++ descendantsFrom (i + 1) ns

end

/-- The listing of siblings from index `i` on is the listing of each, one after the other. -/
theorem descendantsFrom_eq (i : Nat) (ns : List Node) :
    descendantsFrom i ns = (ns.zipIdx i).flatMap
      fun c => ([c.2], c.1) :: c.1.descendants.map fun d => (c.2 :: d.1, d.2) := by
  induction ns generalizing i with
  | nil => rfl
  | cons n ns ih => rw [descendantsFrom, ih (i + 1), List.zipIdx_cons, List.flatMap_cons]

/-- The listing of a node is that of its children by index, each child before what lies below it. -/
theorem descendants_eq (n : Node) :
    n.descendants = n.children.zipIdx.flatMap
      fun c => ([c.2], c.1) :: c.1.descendants.map fun d => (c.2 :: d.1, d.2) := by
  obtain ⟨head, transform, children⟩ := n
  rw [descendants, descendantsFrom_eq]

/-- Exactly the paths that lead somewhere below a node are listed, with what they lead to. -/
theorem mem_descendants {n m : Node} {p : List Nat} :
    (p, m) ∈ n.descendants ↔ p ≠ [] ∧ n.at? p = some m := by
  induction n using Node.induction generalizing p m with
  | step n ih =>
    rw [descendants_eq, List.mem_flatMap]
    constructor
    · rintro ⟨⟨c, i⟩, hc, hp⟩
      have hi : n.children[i]? = some c := List.mk_mem_zipIdx_iff_getElem?.mp hc
      have hmem : c ∈ n.children := List.mem_of_getElem? hi
      rcases List.mem_cons.mp hp with hp | hp
      · injection hp with hp hm
        subst hp hm
        exact ⟨List.cons_ne_nil _ _, at?_cons_eq_some.mpr ⟨_, hi, rfl⟩⟩
      · obtain ⟨⟨q, m'⟩, hq, heq⟩ := List.mem_map.mp hp
        injection heq with hp hm
        subst hp hm
        exact ⟨List.cons_ne_nil _ _, at?_cons_eq_some.mpr ⟨c, hi, ((ih c hmem).mp hq).2⟩⟩
    · rintro ⟨hne, hat⟩
      cases p with
      | nil => exact absurd rfl hne
      | cons i p =>
        obtain ⟨c, hi, hat⟩ := at?_cons_eq_some.mp hat
        refine ⟨(c, i), List.mk_mem_zipIdx_iff_getElem?.mpr hi, ?_⟩
        cases p with
        | nil =>
          injection hat with hat
          subst hat
          exact List.mem_cons_self
        | cons j p =>
          refine List.mem_cons_of_mem _ (List.mem_map.mpr ⟨(j :: p, m), ?_, rfl⟩)
          exact (ih c (List.mem_of_getElem? hi)).mpr ⟨List.cons_ne_nil _ _, hat⟩

/-- Siblings from index `i` on are listed under paths that begin with an index from `i` on. -/
theorem le_head_of_mem_descendantsFrom {i : Nat} {ns : List Node} {d : List Nat × Node}
    (h : d ∈ descendantsFrom i ns) : ∃ j p, d.1 = j :: p ∧ i ≤ j := by
  rw [descendantsFrom_eq, List.mem_flatMap] at h
  obtain ⟨⟨c, j⟩, hc, hd⟩ := h
  have hj : i ≤ j := List.le_snd_of_mem_zipIdx hc
  rcases List.mem_cons.mp hd with rfl | hd
  · exact ⟨j, [], rfl, hj⟩
  · obtain ⟨d', -, rfl⟩ := List.mem_map.mp hd
    exact ⟨j, d'.1, rfl, hj⟩

/-- The listing of siblings is in order if that of each is: indexes go up. -/
theorem descendantsFrom_sorted {ns : List Node} (i : Nat)
    (h : ∀ c ∈ ns, (c.descendants.map Prod.fst).Pairwise (· < ·)) :
    ((descendantsFrom i ns).map Prod.fst).Pairwise (· < ·) := by
  induction ns generalizing i with
  | nil => exact List.Pairwise.nil
  | cons n ns ih =>
    rw [descendantsFrom, List.map_append, List.pairwise_append]
    refine ⟨?_, ih (i + 1) fun c hc => h c (List.mem_cons_of_mem _ hc), ?_⟩
    · rw [List.map_cons, List.map_map, List.pairwise_cons]
      constructor
      · intro p hp
        obtain ⟨⟨q, m⟩, hq, rfl⟩ := List.mem_map.mp hp
        have hne : q ≠ [] := (mem_descendants.mp hq).1
        cases q with
        | nil => exact absurd rfl hne
        | cons j q => exact List.Lex.cons List.Lex.nil
      · rw [List.pairwise_map]
        refine (List.pairwise_map.mp (h n List.mem_cons_self)).imp fun hlt => ?_
        exact List.Lex.cons hlt
    · intro p hp q hq
      obtain ⟨d, hd, rfl⟩ := List.mem_map.mp hq
      obtain ⟨j, q, hj, hij⟩ := le_head_of_mem_descendantsFrom hd
      have hpi : ∃ r, p = i :: r := by
        obtain ⟨d', hd', rfl⟩ := List.mem_map.mp hp
        rcases List.mem_cons.mp hd' with rfl | hd'
        · exact ⟨[], rfl⟩
        · obtain ⟨e, -, rfl⟩ := List.mem_map.mp hd'
          exact ⟨e.1, rfl⟩
      obtain ⟨r, rfl⟩ := hpi
      rw [hj]
      exact List.Lex.rel (by omega)

/-- The listing is in document order, so no path stands in it twice. -/
theorem descendants_sorted (n : Node) : (n.descendants.map Prod.fst).Pairwise (· < ·) := by
  induction n using Node.induction with
  | step n ih =>
    obtain ⟨head, transform, children⟩ := n
    rw [descendants]
    exact descendantsFrom_sorted 0 ih

end Node

namespace Element

/-! ## Elements -/

/-- Induction on a tree of elements: a property holds of every element if it holds of an element
    whenever it holds of each of its children. -/
@[elab_as_elim]
theorem induction {motive : Element → Prop}
    (step : ∀ e : Element, (∀ c ∈ e.children, motive c) → motive e) (e : Element) : motive e := by
  obtain ⟨tag, attributes, children⟩ := e
  refine step _ fun c hc => ?_
  have hlt : sizeOf c < sizeOf (Element.mk tag attributes children) := by
    have h : sizeOf c < sizeOf children := List.sizeOf_lt_of_mem hc
    simp only [Element.mk.sizeOf_spec]
    omega
  exact induction step c
termination_by sizeOf e

/-- A path that leads somewhere goes through a child, and leads there from it. -/
theorem at?_cons_eq_some {e d : Element} {i : Nat} {p : List Nat} :
    e.at? (i :: p) = some d ↔ ∃ c, e.children[i]? = some c ∧ c.at? p = some d :=
  Option.bind_eq_some_iff

/-- A path in two parts is followed part by part. -/
theorem at?_append (e : Element) (p q : List Nat) : e.at? (p ++ q) = (e.at? p).bind (·.at? q) := by
  induction p generalizing e with
  | nil => rfl
  | cons i p ih =>
    show (e.children[i]?).bind (·.at? (p ++ q)) = ((e.children[i]?).bind (·.at? p)).bind (·.at? q)
    cases e.children[i]? with
    | none => rfl
    | some c => exact ih c

/-- `e.Throughout P` — `P` holds of the element `e` and of everything in it. -/
inductive Throughout (P : Element → Prop) : Element → Prop where
  | mk {e : Element} (here : P e) (inside : ∀ c ∈ e.children, Throughout P c) : Throughout P e

namespace Throughout

variable {P : Element → Prop} {e d : Element}

theorem here (h : Throughout P e) : P e := by
  cases h with
  | mk here _ => exact here

theorem inside (h : Throughout P e) : ∀ c ∈ e.children, Throughout P c := by
  cases h with
  | mk _ inside => exact inside

/-- In an element without children there is nothing else to ask. -/
theorem iff_here (h : e.children = []) : Throughout P e ↔ P e := by
  refine ⟨here, fun hP => .mk hP ?_⟩
  rw [h]
  exact fun c hc => absurd hc List.not_mem_nil

/-- What holds throughout an element holds wherever a path leads from it. -/
theorem at? {p : List Nat} (h : Throughout P e) (hd : e.at? p = some d) : P d := by
  induction p generalizing e with
  | nil =>
    injection hd with hd
    subst hd
    exact h.here
  | cons i p ih =>
    obtain ⟨c, hi, hd⟩ := at?_cons_eq_some.mp hd
    exact ih (h.inside c (List.mem_of_getElem? hi)) hd

/-- **Throughout is everywhere:** what holds throughout an element is what holds at every place in
    it. -/
theorem iff_at? : Throughout P e ↔ ∀ p d, e.at? p = some d → P d := by
  refine ⟨fun h p d hd => h.at? hd, fun h => ?_⟩
  induction e using Element.induction with
  | step e ih =>
    refine .mk (h [] e rfl) fun c hc => ih c hc fun p d hd => ?_
    obtain ⟨i, hi⟩ := List.mem_iff_getElem?.mp hc
    exact h (i :: p) d (at?_cons_eq_some.mpr ⟨c, hi, hd⟩)

theorem mono {Q : Element → Prop} (hPQ : ∀ d, P d → Q d) (h : Throughout P e) : Throughout Q e :=
  iff_at?.mpr fun _ d hd => hPQ d (h.at? hd)

end Throughout

@[simp]
theorem append_nil (e : Element) : e.append [] = e := by
  obtain ⟨tag, attributes, children⟩ := e
  rw [append, List.append_nil]

@[simp]
theorem append_append (e : Element) (cs ds : List Element) :
    (e.append cs).append ds = e.append (cs ++ ds) := by
  rw [append, append, append, List.append_assoc]

end Element

end SolidExport
