/-
  Nesting statements is the inverse of listing a tree.

  `outline` lists the statements below a node, outer ones first.  Statements can be nested exactly if
  their levels do (`Statement.Nests`: none is negative, and none is more than one deeper than the one
  before) and each signature can be read.  The tree that they nest to is then the only one that has
  them as its outline, and otherwise the first statement that is wrong decides what the fault is
  (`ofStatements_inverts_outline`).

  Reading goes through the statements once, so what it knows after some of them is an invariant of the
  statements taken so far (`ReadSo`).  Nesting goes through them from the end: the trees that follow a
  head never grow in level, so those that are deeper than it are all one deeper (`nest_isForest`).
-/
import Mathlib.Data.List.Chain
import Mathlib.Data.List.TakeWhile
import SolidExport.Proofs.Node.Prune
import SolidExport.Proofs.Source.Nest

namespace SolidExport

open Outcome (bind_ok bind_error foldlM_done foldlM_error)

namespace Statement

/-! ## Levels that nest -/

/-- `Follows previous level` — whether a statement of this level may stand behind one of level
    `previous`: the level is not negative, and at most one deeper. -/
def Follows (previous level : Int) : Prop := 0 ≤ level ∧ level ≤ previous + 1

/-- `Nests ss` — the levels of the statements nest: each follows the one before, the first one
    following minus one. -/
def Nests (ss : List Statement) : Prop := ((-1) :: ss.map (·.level)).IsChain Follows

/-- `lastLevel ss` — the level of the last of some statements, or minus one if there are none, so
    that the next level may be one more in either case. -/
def lastLevel (ss : List Statement) : Int := ((-1) :: ss.map (·.level)).getLast (List.cons_ne_nil _ _)

theorem nests_nil : Nests [] := .singleton _

theorem lastLevel_append (ss : List Statement) (s : Statement) :
    lastLevel (ss ++ [s]) = s.level := by
  unfold lastLevel
  simp

/-- One more statement nests behind others exactly if these nest and its level follows that of the
    last. -/
theorem nests_append {ss : List Statement} {s : Statement} :
    Nests (ss ++ [s]) ↔ Nests ss ∧ Follows (lastLevel ss) s.level := by
  unfold Nests lastLevel
  rw [List.map_append, ← List.cons_append, List.isChain_append,
    List.getLast?_eq_some_getLast (List.cons_ne_nil _ _)]
  simp

/-- Statements that nest do so up to any of them. -/
theorem Nests.of_append {ss more : List Statement} (h : Nests (ss ++ more)) : Nests ss := by
  rw [Nests, List.map_append, ← List.cons_append] at h
  exact h.left_of_append

/-- Each of some statements that nest follows the ones before it. -/
theorem Nests.follows {before after : List Statement} {s : Statement}
    (h : Nests (before ++ s :: after)) : Follows (lastLevel before) s.level := by
  have hsplit : before ++ s :: after = (before ++ [s]) ++ after := by simp
  rw [hsplit] at h
  exact (nests_append.mp h.of_append).2

theorem Nests.level_nonneg {ss : List Statement} (h : Nests ss) {s : Statement} (hs : s ∈ ss) :
    0 ≤ s.level := by
  obtain ⟨before, after, rfl⟩ := List.append_of_mem hs
  exact h.follows.1

end Statement

open Statement (Follows Nests lastLevel nests_append lastLevel_append)

/-! ## Reading one statement -/

/-- `s.IsReadable` — whether the signature of the statement `s` can be read. -/
def Statement.IsReadable (s : Statement) : Prop :=
  ∃ signature, Signature.read s.line s.signature = .ok signature

namespace Node

/-- `levelFault previous s` — the fault of the statement `s`, whose level does not follow
    `previous`: it is negative, or it skips one. -/
def levelFault (previous : Int) (s : Statement) : Fault :=
  .located s.location
    (if s.level < 0 then .unexpectedLevel s.level else .skippedLevel s.level previous)

theorem code_levelFault (previous : Int) (s : Statement) :
    (levelFault previous s).cause.code = .treeStructure := by
  unfold levelFault Fault.located
  dsimp only
  split
  · rfl
  · rfl

theorem checkLevel_ok {previous : Int} {s : Statement} (h : checkLevel previous s = .ok ()) :
    Follows previous s.level := by
  unfold checkLevel at h
  split at h
  · exact nomatch h
  · split at h
    · exact nomatch h
    · exact ⟨by omega, by omega⟩

theorem checkLevel_error {previous : Int} {s : Statement} {f : Fault}
    (h : checkLevel previous s = .error f) :
    ¬Follows previous s.level ∧ f = levelFault previous s := by
  unfold checkLevel at h
  split at h
  · rename_i hnegative
    injection h with h
    refine ⟨fun hfollows => ?_, ?_⟩
    · have hle := hfollows.1
      omega
    · rw [levelFault, if_pos hnegative, h]
  · rename_i hnonnegative
    split at h
    · rename_i hskips
      injection h with h
      refine ⟨fun hfollows => ?_, ?_⟩
      · have hle := hfollows.2
        omega
      · rw [levelFault, if_neg hnonnegative, h]
    · exact nomatch h

/-- **All that reading one statement can do**: it adds the head, or it refuses the level, or it
    refuses the signature. -/
theorem Reading.step_ok {r r' : Reading} {s : Statement} (h : r.step s = .ok r') :
    Follows r.level s.level ∧ ∃ head, Head.read s = .ok head ∧ r' = ⟨r.heads.push head, s.level⟩ := by
  obtain ⟨u, hlevel, h⟩ := bind_ok.mp h
  obtain ⟨head, hhead, h⟩ := bind_ok.mp h
  injection h with h
  exact ⟨checkLevel_ok hlevel, head, hhead, h.symm⟩

theorem Reading.step_error {r : Reading} {s : Statement} {f : Fault} (h : r.step s = .error f) :
    (¬Follows r.level s.level ∧ f = levelFault r.level s) ∨
    (Follows r.level s.level ∧ Head.read s = .error f) := by
  rcases bind_error h with hlevel | ⟨u, hlevel, h⟩
  · exact Or.inl (checkLevel_error hlevel)
  · rcases bind_error h with hhead | ⟨head, -, h⟩
    · exact Or.inr ⟨checkLevel_ok hlevel, hhead⟩
    · exact nomatch h

/-! ## Reading some statements -/

/-- `ReadSo done r` — what is known once the statements `done` have been read and the reading is at
    `r`: they nest, and each has been read to the head in its place. -/
structure ReadSo (done : List Statement) (r : Reading) : Prop where
  nests : Nests done
  level : r.level = lastLevel done
  statements : r.heads.toList.map (·.statement) = done
  read : ∀ head ∈ r.heads.toList, Head.read head.statement = .ok head

theorem ReadSo.step {done : List Statement} {r r' : Reading} {s : Statement} (h : ReadSo done r)
    (hstep : r.step s = .ok r') : ReadSo (done ++ [s]) r' := by
  obtain ⟨hfollows, head, hhead, rfl⟩ := Reading.step_ok hstep
  have hstatement : head.statement = s := (Head.read_ok hhead).1
  rw [h.level] at hfollows
  refine ⟨nests_append.mpr ⟨h.nests, hfollows⟩, (lastLevel_append done s).symm, ?_, ?_⟩
  · dsimp only
    rw [Array.toList_push, List.map_append, h.statements, List.map_singleton, hstatement]
  · intro k hk
    dsimp only at hk
    rw [Array.toList_push, List.mem_append, List.mem_singleton] at hk
    rcases hk with hk | rfl
    · exact h.read k hk
    · rw [hstatement]
      exact hhead

/-- A run that takes all of some statements has read them in their order, and they nest. -/
theorem readSo_of_run {ss : List Statement} {r : Reading}
    (h : ss.foldlM Reading.step ⟨#[], -1⟩ = .ok r) : ReadSo ss r := by
  have hinit : ReadSo [] ⟨#[], -1⟩ :=
    ⟨Statement.nests_nil, rfl, rfl, fun head hhead => absurd hhead List.not_mem_nil⟩
  exact foldlM_done (fun done s a s' hs hstep => hs.step hstep) hinit h

theorem ReadSo.isReadable {done : List Statement} {r : Reading} (h : ReadSo done r) {s : Statement}
    (hs : s ∈ done) : s.IsReadable := by
  rw [← h.statements] at hs
  obtain ⟨head, hhead, rfl⟩ := List.mem_map.mp hs
  exact ⟨_, (Head.read_ok (h.read head hhead)).2⟩

theorem readHeads_ok {ss : List Statement} {heads : List Head} (h : readHeads ss = .ok heads) :
    ∃ r, ReadSo ss r ∧ heads = r.heads.toList := by
  obtain ⟨r, hr, rfl⟩ := Outcome.map_ok.mp h
  exact ⟨r, readSo_of_run hr, rfl⟩

/-- **The first statement that is wrong decides.**  All before it nest and can be read, and the
    fault is that of its level or, if that follows, of its signature. -/
theorem readHeads_error {ss : List Statement} {f : Fault} (h : readHeads ss = .error f) :
    ∃ before s after, ss = before ++ s :: after ∧ Nests before ∧ (∀ b ∈ before, b.IsReadable) ∧
      ((¬Follows (lastLevel before) s.level ∧ f = levelFault (lastLevel before) s) ∨
      (Follows (lastLevel before) s.level ∧ Signature.read s.line s.signature = .error f)) := by
  have hrun : ss.foldlM Reading.step ⟨#[], -1⟩ = .error f := Outcome.map_error.mp h
  obtain ⟨before, s, after, r, rfl, hbefore, hs⟩ := foldlM_error hrun
  have hread := readSo_of_run hbefore
  refine ⟨before, s, after, rfl, hread.nests, fun b hb => hread.isReadable hb, ?_⟩
  rw [← hread.level]
  rcases Reading.step_error hs with hlevel | ⟨hfollows, hhead⟩
  · exact Or.inl hlevel
  · exact Or.inr ⟨hfollows, Head.read_error hhead⟩

/-! ## Nesting -/

theorem headsOf_append (ns ms : List Node) : headsOf (ns ++ ms) = headsOf ns ++ headsOf ms := by
  induction ns with
  | nil => rfl
  | cons n ns ih => rw [List.cons_append, headsOf, headsOf, ih, List.append_assoc]

/-- **Nesting loses no head, doubles none and moves none:** read off the forest, they come in the
    order that they had. -/
theorem headsOf_nest (heads : List Head) : headsOf (nest heads) = heads := by
  induction heads with
  | nil => rfl
  | cons head heads ih =>
    show headsOf (graft head (nest heads)) = _
    unfold graft
    dsimp only
    rw [headsOf, Node.heads, List.cons_append, ← headsOf_append, List.takeWhile_append_dropWhile, ih]

/-- `IsForest forest` — trees in a row as they are while statements are nested from the end: in each
    of them a child is one level below its parent, and no tree is deeper than one before it. -/
structure IsForest (forest : List Node) : Prop where
  read : ∀ n ∈ forest, n.IsRead n.level
  levels : forest.Pairwise fun n m => m.level ≤ n.level

/-- No tree of a forest stands deeper than the first, so a forest that begins at `level` has no
    deeper tree. -/
theorem IsForest.level_le {forest : List Node} {level : Int} (h : IsForest forest)
    (hfirst : StopsAt level forest) {m : Node} (hm : m ∈ forest) : m.level ≤ level := by
  have hlevels := h.levels
  cases forest with
  | nil => exact absurd hm List.not_mem_nil
  | cons k ks =>
    have hk : k.level ≤ level := hfirst k rfl
    rcases List.mem_cons.mp hm with rfl | hm
    · exact hk
    · have hle : m.level ≤ k.level := (List.pairwise_cons.mp hlevels).1 m hm
      omega

theorem IsForest.sublist {forest part : List Node} (h : IsForest forest) (hpart : part.Sublist forest) :
    IsForest part :=
  ⟨fun n hn => h.read n (hpart.subset hn), h.levels.sublist hpart⟩

/-- `isDeeper level n` — whether the node `n` stands deeper than `level`, and so below a statement
    of that level that is put in front of it. -/
def isDeeper (level : Int) (n : Node) : Bool := decide (level < n.level)

theorem graft_eq (head : Head) (forest : List Node) :
    graft head forest = ⟨head, none, forest.takeWhile (isDeeper head.statement.level)⟩ ::
      forest.dropWhile (isDeeper head.statement.level) := rfl

/-- In a forest that begins at most one level deeper, the trees that are taken are one level deeper. -/
theorem IsForest.isRead_of_taken {forest : List Node} {level : Int} (h : IsForest forest)
    (hfirst : StopsAt (level + 1) forest) {c : Node} (hc : c ∈ forest.takeWhile (isDeeper level)) :
    c.IsRead (level + 1) := by
  have hmem : c ∈ forest := (List.takeWhile_sublist _).subset hc
  have hdeeper : isDeeper level c = true := List.mem_takeWhile_imp hc
  have hlower : level < c.level := of_decide_eq_true hdeeper
  have hupper : c.level ≤ level + 1 := h.level_le hfirst hmem
  have hlevel : c.level = level + 1 := by omega
  rw [← hlevel]
  exact h.read c hmem

/-- The trees that a head of `level` does not take begin no deeper than that. -/
theorem stopsAt_dropWhile (level : Int) (forest : List Node) :
    StopsAt level (forest.dropWhile (isDeeper level)) := by
  intro n hn
  have hstop := List.head?_dropWhile_not (isDeeper level) forest
  rw [Option.mem_def.mp hn] at hstop
  have hnot : ¬level < n.level := of_decide_eq_false hstop
  omega

/-- **The step lemma.**  A head in front of a forest that begins at most one level deeper gives a
    forest. -/
theorem IsForest.graft {head : Head} {forest : List Node} (h : IsForest forest)
    (hread : Head.read head.statement = .ok head)
    (hfirst : StopsAt (head.statement.level + 1) forest) : IsForest (graft head forest) := by
  have hleft := h.sublist (List.dropWhile_sublist (isDeeper head.statement.level))
  have hbehind := stopsAt_dropWhile head.statement.level forest
  rw [graft_eq]
  refine ⟨?_, List.pairwise_cons.mpr ⟨fun m hm => hleft.level_le hbehind hm, hleft.levels⟩⟩
  intro n hn
  rcases List.mem_cons.mp hn with rfl | hn
  · exact .mk rfl hread fun c hc => h.isRead_of_taken hfirst hc
  · exact hleft.read n hn

/-- **The run lemma.**  Heads whose levels follow each other nest to a forest, whose trees are as
    they are read. -/
theorem isForest_nest {heads : List Head} (hread : ∀ head ∈ heads, Head.read head.statement = .ok head)
    (hlevels : (heads.map (·.statement.level)).IsChain Follows) : IsForest (nest heads) := by
  induction heads with
  | nil => exact ⟨fun n hn => absurd hn List.not_mem_nil, List.Pairwise.nil⟩
  | cons head heads ih =>
    rw [List.map_cons, List.isChain_cons] at hlevels
    have hforest := ih (fun k hk => hread k (List.mem_cons_of_mem head hk)) hlevels.2
    refine hforest.graft (hread head List.mem_cons_self) fun n hn => ?_
    exact (hlevels.1 n.level (level_head_nest hn)).2

/-! ## Documents -/

/-- `outline n` — the statements of the nodes below `n`, a parent before its children.  This is the
    order in which they are written. -/
def outline (n : Node) : List Statement := n.nodesBelow.map (·.head.statement)

/-- `IsDocument root` — a tree as it is read: below the root each node was read from its statement,
    is one level deeper than its parent, and has no transformation. -/
def IsDocument (root : Node) : Prop := ∃ ns, root = Node.root ns ∧ ∀ n ∈ ns, n.IsRead 0

theorem headsOf_eq (ns : List Node) : headsOf ns = ns.flatMap Node.heads := by
  induction ns with
  | nil => rfl
  | cons n ns ih => rw [headsOf, ih, List.flatMap_cons]

theorem heads_eq (n : Node) : n.heads = n.head :: headsOf n.children := by
  obtain ⟨head, transform, children⟩ := n
  rw [heads]

theorem map_head_nodesBelow (n : Node) : n.nodesBelow.map (·.head) = headsOf n.children := by
  induction n using Node.induction with
  | step n ih =>
    rw [nodesBelow_eq, headsOf_eq, List.map_flatMap]
    refine List.flatMap_congr fun c hc => ?_
    rw [List.map_cons, ih c hc, heads_eq]

theorem outline_eq (n : Node) : n.outline = (headsOf n.children).map (·.statement) := by
  rw [← map_head_nodesBelow, List.map_map]
  rfl

/-- The outline of a document nests to that document.  This is one half of the round trip. -/
theorem ofStatements_outline {root : Node} (h : root.IsDocument) :
    ofStatements root.outline = .ok root := by
  obtain ⟨ns, rfl, hread⟩ := h
  rw [outline_eq]
  exact ofStatements_headsOf hread

/-- Statements that are read nest to a document, whose outline they are.  This is the other half of
    the round trip. -/
theorem ofStatements_ok {ss : List Statement} {root : Node} (h : ofStatements ss = .ok root) :
    root.IsDocument ∧ root.outline = ss ∧ Nests ss ∧ ∀ s ∈ ss, s.IsReadable := by
  rw [ofStatements_eq] at h
  obtain ⟨heads, hheads, rfl⟩ := Outcome.map_ok.mp h
  obtain ⟨r, hread, rfl⟩ := readHeads_ok hheads
  have hnests := hread.nests
  have hlevels : (r.heads.toList.map (·.statement)).map (·.level)
      = r.heads.toList.map (·.statement.level) := List.map_map
  rw [Nests, ← hread.statements, hlevels, List.isChain_cons] at hnests
  have hforest := isForest_nest hread.read hnests.2
  have hheads' : headsOf (nest r.heads.toList) = r.heads.toList := headsOf_nest r.heads.toList
  refine ⟨⟨_, rfl, fun n hn => ?_⟩, ?_, hread.nests, fun s hs => hread.isReadable hs⟩
  · -- the first tree is not below level zero, no other is deeper, and none is negative
    have hmem : n.head ∈ r.heads.toList := by
      rw [← hheads', headsOf_eq]
      refine List.mem_flatMap.mpr ⟨n, hn, ?_⟩
      rw [heads_eq]
      exact List.mem_cons_self
    have hnonneg : 0 ≤ n.level := by
      refine hread.nests.level_nonneg ?_
      rw [← hread.statements]
      exact List.mem_map_of_mem hmem
    have hle : n.level ≤ 0 := by
      refine hforest.level_le (fun first hfirst => ?_) hn
      exact (hnests.1 first.level (level_head_nest hfirst)).2
    have hzero : n.level = 0 := by omega
    rw [← hzero]
    exact hforest.read n hn
  · rw [outline_eq]
    show (headsOf (nest r.heads.toList)).map _ = ss
    rw [hheads', hread.statements]

theorem ofStatements_error {ss : List Statement} {f : Fault} (h : ofStatements ss = .error f) :
    readHeads ss = .error f := by
  rw [ofStatements_eq] at h
  exact Outcome.map_error.mp h

theorem IsRead.level_child {level : Int} {n m c : Node} {p : List Nat} (h : n.IsRead level)
    (hm : n.at? p = some m) (hc : c ∈ m.children) : c.level = m.level + 1 := by
  induction p generalizing n level with
  | nil =>
    injection hm with hm
    subst hm
    cases h with
    | mk hlevel _ hchildren =>
      rw [(hchildren c hc).level_eq, ← hlevel]
      rfl
  | cons i p ih =>
    obtain ⟨k, hk, hkm⟩ := at?_cons_eq_some.mp hm
    cases h with
    | mk _ _ hchildren => exact ih (hchildren k (List.mem_of_getElem? hk)) hkm

/-- In a document each node is one level deeper than its parent. -/
theorem IsDocument.level_child {root n c : Node} {p : List Nat} (h : root.IsDocument)
    (hn : root.at? p = some n) (hc : c ∈ n.children) : c.level = n.level + 1 := by
  obtain ⟨ns, rfl, hread⟩ := h
  cases p with
  | nil =>
    injection hn with hn
    subst hn
    exact (hread c hc).level_eq
  | cons i p =>
    obtain ⟨k, hk, hn⟩ := at?_cons_eq_some.mp hn
    exact (hread k (List.mem_of_getElem? hk)).level_child hn hc

/-- **Nesting inverts listing.**  Statements nest to a tree exactly if their levels do and each can be
    read, and the tree is the one document with that outline, where each node is one level deeper
    than its parent.  If they do not, the fault is that of the first statement that is wrong: of its
    level, or else of its signature. -/
theorem ofStatements_inverts_outline (ss : List Statement) :
    ((∃ root, ofStatements ss = .ok root) ↔ Nests ss ∧ ∀ s ∈ ss, s.IsReadable) ∧
    (∀ root, ofStatements ss = .ok root ↔ root.IsDocument ∧ root.outline = ss) ∧
    (∀ root, ofStatements ss = .ok root → root.level = -1 ∧
      ∀ p n c, root.at? p = some n → c ∈ n.children → c.level = n.level + 1) ∧
    (∀ f, ofStatements ss = .error f → ∃ before s after, ss = before ++ s :: after ∧
      Nests before ∧ (∀ b ∈ before, b.IsReadable) ∧
      ((¬Follows (lastLevel before) s.level ∧ f = levelFault (lastLevel before) s ∧
          f.cause.code = .treeStructure ∧ f.location = some s.location) ∨
        (Follows (lastLevel before) s.level ∧ Signature.read s.line s.signature = .error f))) := by
  refine ⟨⟨?_, ?_⟩, fun root => ⟨?_, ?_⟩, fun root hroot => ?_, fun f hf => ?_⟩
  · rintro ⟨root, hroot⟩
    exact (ofStatements_ok hroot).2.2
  · rintro ⟨hnests, hreadable⟩
    cases h : ofStatements ss with
    | ok root => exact ⟨root, rfl⟩
    | error f =>
      -- the statement that would be wrong follows the ones before it and can be read
      obtain ⟨before, s, after, rfl, -, -, hwrong⟩ := readHeads_error (ofStatements_error h)
      obtain ⟨signature, hsignature⟩ := hreadable s (by simp)
      rcases hwrong with ⟨hlevel, -⟩ | ⟨-, hrefused⟩
      · exact absurd hnests.follows hlevel
      · rw [hsignature] at hrefused
        exact nomatch hrefused
  · intro hroot
    obtain ⟨hdocument, houtline, -, -⟩ := ofStatements_ok hroot
    exact ⟨hdocument, houtline⟩
  · rintro ⟨hdocument, rfl⟩
    exact ofStatements_outline hdocument
  · obtain ⟨hdocument, -, -, -⟩ := ofStatements_ok hroot
    refine ⟨?_, fun p n c hn hc => hdocument.level_child hn hc⟩
    obtain ⟨ns, rfl, -⟩ := hdocument
    rfl
  · obtain ⟨before, s, after, hss, hnests, hreadable, hwrong⟩ := readHeads_error (ofStatements_error hf)
    refine ⟨before, s, after, hss, hnests, hreadable, ?_⟩
    rcases hwrong with ⟨hlevel, rfl⟩ | hsignature
    · exact Or.inl ⟨hlevel, rfl, code_levelFault _ s, rfl⟩
    · exact Or.inr hsignature

end Node

end SolidExport
