/-
  Nesting inverts listing.

  The heads of a tree, outer nodes first, nest to the tree again when each node stands one level
  below its parent (`foldr_graft_heads`).  Their statements never skip a level, so if each head was
  read from its statement, the statements give the tree (`ofStatements_headsOf`).
-/
import SolidExport.Proofs.Node.Descent

namespace SolidExport.Node

open Outcome
open Source (span_append)

mutual

/-- `n.heads` — the heads of the tree `n`, a parent before its children.  This is the order in which
    their statements stand in the text. -/
def heads : Node → List Head
  | ⟨head, _, children⟩ => head :: headsOf children

/-- `headsOf ns` — the heads of the trees `ns` in a row. -/
def headsOf : List Node → List Head
  | [] => []
  | n :: ns => n.heads ++ headsOf ns

end

/-- `IsRead level n` — the tree `n` is as it is read at `level`: it has no transformations, its
    heads were read from their statements, and a child is one level deeper than its parent. -/
inductive IsRead : Int → Node → Prop where
  | mk {level : Int} {head : Head} {children : List Node} (hlevel : head.statement.level = level)
      (hread : Head.read head.statement = .ok head)
      (hchildren : ∀ c ∈ children, IsRead (level + 1) c) : IsRead level ⟨head, none, children⟩

theorem IsRead.level_eq {level : Int} {n : Node} (h : n.IsRead level) : n.level = level := by
  cases h with
  | mk hlevel _ _ => exact hlevel

/-! ## Levels -/

/-- `Reads level heads` — what reading the statements of these heads does, whose first is of
    `level`: it adds the heads and comes to stand at that level or deeper. -/
def Reads (level : Int) (heads : List Head) : Prop :=
  ∀ (done : Array Head) (previous : Int), level ≤ previous + 1 → ∃ last, level ≤ last ∧
    (heads.map (·.statement)).foldlM Reading.step ⟨done, previous⟩ = .ok ⟨done ++ heads.toArray, last⟩

/-- Trees of one level in a row are read in a row, if each is. -/
theorem foldlM_headsOf {level : Int} {ns : List Node} (h : ∀ n ∈ ns, Reads level n.heads)
    (done : Array Head) (previous : Int) (hprevious : level ≤ previous + 1) :
    ∃ last, min level previous ≤ last ∧ ((headsOf ns).map (·.statement)).foldlM Reading.step
      ⟨done, previous⟩ = .ok ⟨done ++ (headsOf ns).toArray, last⟩ := by
  induction ns generalizing done previous with
  | nil => exact ⟨previous, by omega, by simp [headsOf]; rfl⟩
  | cons n ns ih =>
    obtain ⟨middle, hmiddle, hn⟩ := h n List.mem_cons_self done previous hprevious
    obtain ⟨last, hlast, hns⟩ := ih (fun m hm => h m (List.mem_cons_of_mem n hm))
      (done ++ n.heads.toArray) middle (by omega)
    refine ⟨last, by omega, ?_⟩
    rw [headsOf, List.map_append, foldlM_append_of_ok hn, hns]
    simp

/-- The statements of a tree skip no level, so they can be read one after the other.  By induction
    on the tree. -/
theorem IsRead.reads {level : Int} {n : Node} (h : n.IsRead level) (hlevel : 0 ≤ level) :
    Reads level n.heads := by
  induction h with
  | @mk level head children hhead hread _ ih =>
    intro done previous hprevious
    have hchildren : ∀ c ∈ children, Reads (level + 1) c.heads := fun c hc => ih c hc (by omega)
    obtain ⟨last, hlast, hrun⟩ := foldlM_headsOf hchildren (done.push head) level (by omega)
    have hcheck : checkLevel previous head.statement = .ok () := by
      unfold checkLevel
      rw [hhead, if_neg (by omega), if_neg (by omega)]
    have hstep : Reading.step ⟨done, previous⟩ head.statement = .ok ⟨done.push head, level⟩ := by
      unfold Reading.step
      rw [hcheck, hread, hhead]
      rfl
    refine ⟨last, by omega, ?_⟩
    rw [heads, List.map_cons, foldlM_cons_of_ok hstep, hrun]
    simp

/-! ## Nesting -/

/-- `StopsAt level forest` — the first tree of the forest is of `level` or higher up, so that it is
    no child of a node of that level in front of it. -/
def StopsAt (level : Int) (forest : List Node) : Prop := ∀ n ∈ forest.head?, n.level ≤ level

/-- Trees of one level in a row are nested again in a row, if each is. -/
theorem foldr_graft_headsOf {level : Int} {ns : List Node}
    (hlevel : ∀ n ∈ ns, n.level = level)
    (h : ∀ n ∈ ns, ∀ rest, StopsAt level rest → n.heads.foldr graft rest = n :: rest)
    {rest : List Node} (hrest : StopsAt level rest) :
    (headsOf ns).foldr graft rest = ns ++ rest := by
  induction ns with
  | nil => rfl
  | cons n ns ih =>
    have hns := ih (fun m hm => hlevel m (List.mem_cons_of_mem n hm))
      (fun m hm => h m (List.mem_cons_of_mem n hm))
    have hstop : StopsAt level (ns ++ rest) := by
      intro m hm
      cases ns with
      | nil => exact hrest m hm
      | cons k ks =>
        obtain rfl : k = m := Option.some.inj hm
        exact Int.le_of_eq (hlevel k (List.mem_cons_of_mem n List.mem_cons_self))
    rw [headsOf, List.foldr_append, hns, h n List.mem_cons_self _ hstop]
    rfl

/-- A tree is nested again from its heads, in front of trees that stand no deeper than itself. -/
theorem IsRead.foldr_graft_heads {level : Int} {n : Node} (h : n.IsRead level) {rest : List Node}
    (hrest : StopsAt level rest) : n.heads.foldr graft rest = n :: rest := by
  induction h generalizing rest with
  | @mk level head children hhead _ hchildren ih =>
    have hbelow : ∀ c ∈ children, c.level = level + 1 := fun c hc => (hchildren c hc).level_eq
    have hforest : (headsOf children).foldr graft rest = children ++ rest := by
      refine foldr_graft_headsOf hbelow (fun c hc rest' hrest' => ih c hc hrest') ?_
      intro m hm
      have hle := hrest m hm
      omega
    -- the children are what lies deeper than the head
    have hin : ∀ c ∈ children, decide (head.statement.level < c.level) = true := by
      intro c hc
      rw [hbelow c hc, hhead]
      exact decide_eq_true (by omega)
    have hout : ∀ m ∈ rest.head?, decide (head.statement.level < m.level) = false := by
      intro m hm
      have hle := hrest m hm
      exact decide_eq_false (by omega)
    obtain ⟨htake, hdrop⟩ := span_append hin hout
    rw [heads, List.foldr_cons, hforest]
    unfold graft
    dsimp only
    rw [htake, hdrop]

/-! ## Trees -/

/-- **Trees are read back from the statements of their heads**, below a root. -/
theorem ofStatements_headsOf {ns : List Node} (h : ∀ n ∈ ns, n.IsRead 0) :
    ofStatements ((headsOf ns).map (·.statement)) = .ok (root ns) := by
  have hreads : ∀ n ∈ ns, Reads 0 n.heads := fun n hn => (h n hn).reads (Int.le_refl 0)
  obtain ⟨last, _, hrun⟩ := foldlM_headsOf hreads #[] (-1) (by decide)
  have hnest : nest (headsOf ns) = ns := by
    have hend : StopsAt 0 [] := fun m hm => nomatch hm
    have hgraft := foldr_graft_headsOf (fun n hn => (h n hn).level_eq)
      (fun n hn rest hrest => (h n hn).foldr_graft_heads hrest) hend
    rwa [List.append_nil] at hgraft
  rw [ofStatements_eq]
  unfold readHeads
  rw [hrun]
  show Except.ok (root (nest (#[] ++ (headsOf ns).toArray).toList)) = _
  rw [Array.empty_append, List.toList_toArray, hnest]

end SolidExport.Node
