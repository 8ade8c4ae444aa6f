/-
  The dimension of a node as one search in preorder.

  A node is open if its tag passes geometry through and makes none.  From a node one sees itself and,
  in document order, every node below it with nothing but open nodes in between (`visits`).  The
  first of these whose tag is that of a generator, or is not supported, decides
  (`dimension_searches_preorder`).

  A child is asked before it is looked into and again when it is, and dummies are left out.
  Neither matters: what was asked before has no answer of its own, and a dummy holds nothing but
  groups, which have none either (`verdict_of_dummy`).
-/
import SolidExport.Proofs.Node.Dimension

namespace SolidExport.Node

/-! ## What is visited -/

/-- `n.IsOpen` — a search for the dimension goes on through the node `n`: its tag passes geometry
    through and makes none. -/
def IsOpen (n : Node) : Prop :=
  Dimension.passesThrough n.tag = true ∧ Dimension.ofGenerator? n.tag = none

instance (n : Node) : Decidable n.IsOpen := inferInstanceAs (Decidable (_ ∧ _))

/-- `n.Sees q` — all nodes strictly between `n` and the place `q` below it are open, so that a
    search from `n` comes to that place. -/
def Sees (n : Node) (q : List Nat) : Prop :=
  ∀ k < q.length, 0 < k → ∀ m ∈ n.at? (q.take k), m.IsOpen

instance (n : Node) (q : List Nat) : Decidable (n.Sees q) :=
  inferInstanceAs (Decidable (∀ k < q.length, 0 < k → ∀ m ∈ n.at? (q.take k), m.IsOpen))

/-- `n.seen` — the nodes below `n` that it sees, in document order. -/
def seen (n : Node) : List Node := (n.descendants.filter fun d => n.Sees d.1).map Prod.snd

/-- `n.visits` — the node `n`, and the nodes below it that it sees: all that a search for its
    dimension may look at, in order. -/
def visits (n : Node) : List Node := n :: n.seen

/-- A node sees a place below its child `c` exactly if that child is open and sees the place
    itself. -/
theorem sees_cons {n c : Node} {i j : Nat} (hi : n.children[i]? = some c) (q : List Nat) :
    n.Sees (i :: j :: q) ↔ c.IsOpen ∧ c.Sees (j :: q) := by
  constructor
  · intro h
    refine ⟨h 1 (by simp) Nat.one_pos c (by rw [List.take_succ_cons, at?_cons hi]; rfl), ?_⟩
    intro k hk hpos m hm
    refine h (k + 1) (Nat.succ_lt_succ hk) (Nat.succ_pos k) m ?_
    rwa [List.take_succ_cons, at?_cons hi]
  · rintro ⟨hopen, hsees⟩ k hk hpos m hm
    obtain ⟨k, rfl⟩ : ∃ l, k = l + 1 := ⟨k - 1, by omega⟩
    rw [List.take_succ_cons, at?_cons hi] at hm
    cases k with
    | zero => exact Option.some.inj hm ▸ hopen
    | succ k => exact hsees (k + 1) (Nat.lt_of_succ_lt_succ hk) (Nat.succ_pos k) m hm

/-- A child is seen from its parent, since nothing stands between them. -/
theorem sees_child (n : Node) (i : Nat) : n.Sees [i] := by
  intro k hk hpos
  exact absurd hk (Nat.not_lt.mpr hpos)

/-- What a node sees of one child: the child, and what that child sees if it is open. -/
theorem filter_sees {n c : Node} {i : Nat} (hi : n.children[i]? = some c) :
    ((([i], c) :: c.descendants.map fun d => (i :: d.1, d.2)).filter fun d => n.Sees d.1).map
      Prod.snd = c :: if c.IsOpen then c.seen else [] := by
  have hchild : decide (n.Sees ([i], c).1) = true := decide_eq_true (n.sees_child i)
  rw [List.filter_cons, if_pos hchild, List.map_cons, List.filter_map, List.map_map]
  congr 1
  have hbelow : ∀ d ∈ c.descendants, (n.Sees (i :: d.1) ↔ c.IsOpen ∧ c.Sees d.1) := by
    rintro ⟨q, m⟩ hd
    cases q with
    | nil => exact absurd rfl (mem_descendants.mp hd).1
    | cons j q => exact sees_cons hi q
  by_cases hopen : c.IsOpen
  · rw [if_pos hopen, seen]
    refine congrArg (List.map Prod.snd) (List.filter_congr fun d hd => ?_)
    simp [hbelow d hd, hopen]
  · rw [if_neg hopen, List.map_eq_nil_iff, List.filter_eq_nil_iff]
    intro d hd
    simp [hbelow d hd, hopen]

/-- **Seeing goes child by child**, as the search does. -/
theorem seen_eq (n : Node) :
    n.seen = n.children.flatMap fun c => c :: if c.IsOpen then c.seen else [] := by
  have hfst : n.children.zipIdx.map Prod.fst = n.children := List.zipIdx_map_fst 0 n.children
  conv_rhs => rw [← hfst]
  rw [seen, descendants_eq, List.filter_flatMap, List.map_flatMap, List.flatMap_map]
  refine List.flatMap_congr fun c hc => ?_
  exact filter_sees (List.mk_mem_zipIdx_iff_getElem?.mp hc)

/-! ## What decides -/

/-- `n.settles` — whether the node `n` ends the search: it makes geometry, or it cannot be
    converted. -/
def settles (n : Node) : Bool :=
  (Dimension.ofGenerator? n.tag).isSome || Dimension.isUnsupported n.tag

/-- `verdict ns` — what the first of the nodes `ns` says that has something to say: its dimension,
    or its fault. -/
def verdict : List Node → Except Fault (Option Dimension)
  | [] => .ok none
  | n :: ns => n.ownDimension >>= fun
    | some d => .ok (some d)
    | none => verdict ns

theorem verdict_append (ns ms : List Node) :
    verdict (ns ++ ms) = verdict ns >>= fun
      | some d => .ok (some d)
      | none => verdict ms := by
  induction ns with
  | nil => rfl
  | cons n ns ih =>
    rw [List.cons_append, verdict, verdict, ih]
    cases n.ownDimension with
    | error f => rfl
    | ok own =>
      cases own with
      | some d => rfl
      | none => rfl

theorem ownDimension_of_not_settles {n : Node} (h : n.settles = false) :
    n.ownDimension = .ok none := by
  rw [settles, Bool.or_eq_false_iff, Option.isSome_eq_false_iff, Option.isNone_iff_eq_none] at h
  rw [ownDimension, h.2, h.1]
  rfl

/-- The verdict is that of the first node that settles the search; nodes that have nothing to say
    are passed over. -/
theorem verdict_eq_find (ns : List Node) :
    verdict ns = match ns.find? settles with
      | none => .ok none
      | some m => m.ownDimension := by
  induction ns with
  | nil => rfl
  | cons n ns ih =>
    rw [verdict, List.find?_cons]
    cases hsettles : n.settles with
    | false =>
      rw [ownDimension_of_not_settles hsettles]
      exact ih
    | true =>
      dsimp only
      cases hown : n.ownDimension with
      | error f => rfl
      | ok own =>
        cases own with
        | some d => rfl
        | none =>
          -- a node that settles is a generator or is refused
          obtain ⟨hnone, hsupported⟩ := ownDimension_ok hown
          rw [settles, ← hnone, hsupported] at hsettles
          exact nomatch hsettles

/-- In a dummy there are groups only, which are open and have nothing to say. -/
theorem verdict_of_dummy {c : Node} (h : c.isDummy = true) :
    verdict (c :: if c.IsOpen then c.seen else []) = .ok none := by
  have hgroup : ∀ m : Node, m.isDummy = true → m.settles = false := by
    intro m hm
    rw [isDummy_eq, Bool.and_eq_true] at hm
    rw [settles, eq_of_beq hm.1]
    decide
  have hnone : (c :: if c.IsOpen then c.seen else []).find? settles = none := by
    refine List.find?_eq_none.mpr fun m hm => ?_
    rw [Bool.not_eq_true]
    rcases List.mem_cons.mp hm with rfl | hm
    · exact hgroup m h
    · split at hm
      · obtain ⟨⟨q, m⟩, hd, rfl⟩ := List.mem_map.mp hm
        exact hgroup m (isDummy_of_at? h (mem_descendants.mp (List.mem_filter.mp hd).1).2)
      · exact absurd hm List.not_mem_nil
  rw [verdict_eq_find, hnone]

/-! ## The search -/

/-- The step of the search: the child `c`, with what it sees, has the word before the others. -/
theorem firstDimension_cons (c : Node) (ns : List Node) (hc : c.dimension = verdict c.visits) :
    firstDimension (c :: ns) = verdict (c :: if c.IsOpen then c.seen else []) >>= fun
      | some d => .ok (some d)
      | none => firstDimension ns := by
  cases hdummy : c.isDummy with
  | true =>
    rw [firstDimension_of_dummy hdummy, verdict_of_dummy hdummy]
    rfl
  | false =>
    rw [firstDimension, if_neg (by rw [hdummy]; exact Bool.false_ne_true), hc, visits, verdict,
      verdict]
    cases hown : c.ownDimension with
    | error f => rfl
    | ok own =>
      cases own with
      | some d => rfl
      | none =>
        obtain ⟨hgenerator, -⟩ := ownDimension_ok hown
        show (if Dimension.passesThrough c.tag = true then _ else _) = _
        by_cases hpass : Dimension.passesThrough c.tag = true
        · rw [if_pos hpass, if_pos ⟨hpass, hgenerator.symm⟩]
          rfl
        · rw [if_neg hpass, if_neg fun hopen => hpass hopen.1]
          rfl

/-- The run of the search over the children of a node is the verdict over all that they see. -/
theorem firstDimension_eq_verdict {ns : List Node} (h : ∀ c ∈ ns, c.dimension = verdict c.visits) :
    firstDimension ns = verdict (ns.flatMap fun c => c :: if c.IsOpen then c.seen else []) := by
  induction ns with
  | nil =>
    rw [firstDimension]
    rfl
  | cons c ns ih =>
    rw [firstDimension_cons c ns (h c List.mem_cons_self), List.flatMap_cons, verdict_append,
      ih fun d hd => h d (List.mem_cons_of_mem c hd)]

theorem dimension_eq_verdict (n : Node) : n.dimension = verdict n.visits := by
  induction n using Node.induction with
  | step n ih =>
    rw [dimension_eq, firstDimension_eq_verdict ih, ← seen_eq]
    rfl

/-- **A dimension is found by one search in preorder.**  Of the nodes visited, the first that is a
    generator or is not supported decides: its dimension is that of the node, or the node is refused
    where it stands.  If there is none, the node has no dimension. -/
theorem dimension_searches_preorder (n : Node) :
    match n.visits.find? settles with
    | none => n.dimension = .ok none
    | some m =>
      (∃ d, Dimension.ofGenerator? m.tag = some d ∧ n.dimension = .ok (some d)) ∨
      (Dimension.isUnsupported m.tag = true ∧ ∃ f, n.dimension = .error f ∧
        f.cause.code = .csgUnsupported ∧ f.location = some m.location) := by
  rw [dimension_eq_verdict, verdict_eq_find]
  cases hm : n.visits.find? settles with
  | none => exact rfl
  | some m =>
    have hsettles : m.settles = true := List.find?_some hm
    dsimp only
    cases hgenerator : Dimension.ofGenerator? m.tag with
    | some d =>
      have hown : m.ownDimension = .ok (some d) := by
        rw [ownDimension, Dimension.isUnsupported_of_generator hgenerator, hgenerator]
        rfl
      exact Or.inl ⟨d, rfl, hown⟩
    | none =>
      have hunsupported : Dimension.isUnsupported m.tag = true := by
        rwa [settles, hgenerator] at hsettles
      refine Or.inr ⟨hunsupported, m.fault (Dimension.unsupportedCause m.tag), ?_, ?_, rfl⟩
      · rw [ownDimension, if_pos hunsupported]
      · unfold fault Fault.located Dimension.unsupportedCause
        dsimp only
        split
        · rfl
        · rfl

end SolidExport.Node
