/-
  Nesting without a cursor.

  `Node.attach` goes down and up the levels while it goes along the statements.  The same tree comes
  from two passes, each of which is one fold.  The first (`readHeads`) goes along the statements once:
  it checks each level against the one before it and reads each signature on the way, so that the
  first statement that is wrong in either way decides.  The second (`nest`) needs no checks: reading
  the heads from their end, each takes the nodes behind it that lie deeper as its children.

  The descent takes exactly the statements in front that are deeper than its node, and gives it the
  forest that these nest to (`attach_eq`).  Its faults are those of the first pass: a statement that is
  too deep is met first by the node of the statement before it, so the level that the descent expects
  there is one below that statement.  So both ways agree on every list (`ofStatements_eq`).
-/
import Mathlib.Data.List.TakeWhile
import SolidExport.Node.Outline
import SolidExport.Proofs.Outcome
import SolidExport.Proofs.Source.Word

namespace SolidExport

open Outcome (bind_ok map_error map_ok)
open Source (span_append)

/-! ## Reading one statement -/

theorem Head.read_ok {s : Statement} {head : Head} (h : Head.read s = .ok head) :
    head.statement = s ∧ Signature.read s.line s.signature = .ok ⟨head.tag, head.params⟩ := by
  unfold Head.read at h
  cases hsignature : Signature.read s.line s.signature with
  | error f => rw [hsignature] at h; exact nomatch h
  | ok signature =>
    rw [hsignature] at h
    injection h with h
    subst h
    exact ⟨rfl, rfl⟩

theorem Head.read_error {s : Statement} {f : Fault} (h : Head.read s = .error f) :
    Signature.read s.line s.signature = .error f := by
  unfold Head.read at h
  cases hsignature : Signature.read s.line s.signature with
  | error g =>
    rw [hsignature] at h
    exact congrArg Except.error (Except.error.inj h)
  | ok signature => rw [hsignature] at h; exact nomatch h

namespace Node

/-! ## Two passes -/

/-- `checkLevel previous s` — checks the level of the statement `s`, which follows one of the level
    `previous`: it is not negative, and not more than one deeper. -/
def checkLevel (previous : Int) (s : Statement) : Except Fault Unit :=
  if s.level < 0 then .error (.located s.location (.unexpectedLevel s.level))
  else if previous + 1 < s.level then
    .error (.located s.location (.skippedLevel s.level previous))
  else .ok ()

/-- The heads read so far, and the level of the last, which bounds that of the next. -/
structure Reading where
  heads : Array Head
  level : Int

/-- `r.step s` — reads one more statement: its level is checked first, then its signature is
    read. -/
def Reading.step (r : Reading) (s : Statement) : Except Fault Reading := do
  checkLevel r.level s
  let head ← Head.read s
  return ⟨r.heads.push head, s.level⟩

/-- `readHeads statements` — the heads of some statements, or the fault of the first that does not
    nest or cannot be read. -/
def readHeads (statements : List Statement) : Except Fault (List Head) :=
  (statements.foldlM Reading.step ⟨#[], -1⟩).map (·.heads.toList)

/-- `graft head forest` — a node in front of a forest: the deeper trees at the front of the forest
    become its children, and the others stay behind it. -/
def graft (head : Head) (forest : List Node) : List Node :=
  let isBelow := fun n : Node => decide (head.statement.level < n.level)
  ⟨head, none, forest.takeWhile isBelow⟩ :: forest.dropWhile isBelow

/-- `nest heads` — the forest of some heads, built from the end: each in turn is grafted in front of
    the trees behind it. -/
def nest (heads : List Head) : List Node := heads.foldr graft []

/-! ## The first pass in parts -/

/-- `readFrom previous statements` — the heads of statements that stand behind one of the level
    `previous`. -/
def readFrom (previous : Int) (statements : List Statement) : Except Fault (List Head) :=
  (statements.foldlM Reading.step ⟨#[], previous⟩).map (·.heads.toList)

/-- The heads `done` that are there already have no say in what is read behind them. -/
theorem foldlM_step_eq (done : Array Head) (previous : Int) (ss : List Statement) :
    (ss.foldlM Reading.step ⟨done, previous⟩).map (·.heads.toList) =
      (readFrom previous ss).map (done.toList ++ ·) := by
  induction ss generalizing done previous with
  | nil => exact congrArg Except.ok (List.append_nil _).symm
  | cons s ss ih =>
    unfold readFrom
    rw [List.foldlM_cons, List.foldlM_cons]
    unfold Reading.step
    cases checkLevel previous s with
    | error f => rfl
    | ok u =>
      cases Head.read s with
      | error f => rfl
      | ok head =>
        show (ss.foldlM Reading.step ⟨done.push head, s.level⟩).map (·.heads.toList) =
          ((ss.foldlM Reading.step ⟨#[].push head, s.level⟩).map (·.heads.toList)).map _
        rw [ih, ih]
        cases readFrom s.level ss with
        | error f => rfl
        | ok heads =>
          show Except.ok ((done.push head).toList ++ heads) =
            Except.ok (done.toList ++ ([head] ++ heads))
          rw [Array.toList_push, List.append_assoc]

theorem readFrom_cons (previous : Int) (s : Statement) (ss : List Statement) :
    readFrom previous (s :: ss) = checkLevel previous s >>= fun _ =>
      Head.read s >>= fun head => (readFrom s.level ss).map (head :: ·) := by
  unfold readFrom
  rw [List.foldlM_cons]
  unfold Reading.step
  cases checkLevel previous s with
  | error f => rfl
  | ok u =>
    cases Head.read s with
    | error f => rfl
    | ok head => exact foldlM_step_eq (#[].push head) s.level ss

/-- The statements of the heads that are read are those they are read from, in the same order. -/
theorem statements_of_readFrom {previous : Int} {ss : List Statement} {heads : List Head}
    (h : readFrom previous ss = .ok heads) : heads.map (·.statement) = ss := by
  induction ss generalizing previous heads with
  | nil =>
    obtain rfl := Except.ok.inj h
    rfl
  | cons s ss ih =>
    rw [readFrom_cons] at h
    obtain ⟨u, -, h⟩ := bind_ok.mp h
    obtain ⟨head, hhead, h⟩ := bind_ok.mp h
    obtain ⟨others, hothers, rfl⟩ := map_ok.mp h
    rw [List.map_cons, (Head.read_ok hhead).1, ih hothers]

/-- **Statements are read in parts.**  Where the statements `back` begin at most one level below
    `level`, and none of those in front stands above `level`, both parts are read by themselves: the
    first check of `back` passes behind `front` as it does behind a statement of the level `level`. -/
theorem readFrom_append {level previous : Int} {front back : List Statement}
    (hprevious : level ≤ previous) (hfront : ∀ s ∈ front, level ≤ s.level)
    (hback : ∀ s ∈ back.head?, s.level ≤ level + 1) :
    readFrom previous (front ++ back) = readFrom previous front >>= fun heads =>
      (readFrom level back).map (heads ++ ·) := by
  induction front generalizing previous with
  | nil =>
    have hstart : readFrom previous back = readFrom level back := by
      cases back with
      | nil => rfl
      | cons s back =>
        have hs : s.level ≤ level + 1 := hback s rfl
        have hcheck : checkLevel previous s = checkLevel level s := by
          unfold checkLevel
          rw [if_neg (show ¬previous + 1 < s.level by omega),
            if_neg (show ¬level + 1 < s.level by omega)]
        rw [readFrom_cons, readFrom_cons, hcheck]
    rw [List.nil_append, hstart]
    show _ = (readFrom level back).map ([] ++ ·)
    cases readFrom level back with
    | error f => rfl
    | ok heads => rfl
  | cons s front ih =>
    have hlevel : level ≤ s.level := hfront s List.mem_cons_self
    rw [List.cons_append, readFrom_cons, readFrom_cons,
      ih hlevel fun t ht => hfront t (List.mem_cons_of_mem s ht)]
    cases checkLevel previous s with
    | error f => rfl
    | ok u =>
      cases Head.read s with
      | error f => rfl
      | ok head =>
        cases readFrom s.level front with
        | error f => rfl
        | ok heads =>
          show ((readFrom level back).map (heads ++ ·)).map (head :: ·) =
            (readFrom level back).map (head :: heads ++ ·)
          cases readFrom level back with
          | error f => rfl
          | ok others => rfl

/-! ## The second pass in parts -/

/-- Trees `more` that are not deeper than `head` stay outside of it, and with them all that
    follow. -/
theorem graft_append {head : Head} {forest more : List Node}
    (hmore : ∀ n ∈ more.head?, n.level ≤ head.statement.level) :
    graft head (forest ++ more) = graft head forest ++ more := by
  have hsplit : ∀ ns : List Node,
      (ns ++ more).takeWhile (fun n => decide (head.statement.level < n.level))
          = ns.takeWhile (fun n => decide (head.statement.level < n.level)) ∧
        (ns ++ more).dropWhile (fun n => decide (head.statement.level < n.level))
          = ns.dropWhile (fun n => decide (head.statement.level < n.level)) ++ more := by
    intro ns
    induction ns with
    | nil =>
      cases more with
      | nil => exact ⟨rfl, rfl⟩
      | cons n more =>
        have hn : n.level ≤ head.statement.level := hmore n rfl
        simp [hn]
    | cons m ns ih =>
      by_cases hm : head.statement.level < m.level
      · simp [hm, ih.1, ih.2]
      · simp [hm]
  unfold graft
  dsimp only
  rw [(hsplit forest).1, (hsplit forest).2, List.cons_append]

/-- The first tree that some heads nest to has the first head, whatever is grafted onto it, and so
    its level. -/
theorem level_head_nest {heads : List Head} {n : Node} (h : n ∈ (nest heads).head?) :
    n.level ∈ (heads.map (·.statement.level)).head? := by
  cases heads with
  | nil => exact nomatch h
  | cons head heads =>
    obtain rfl : _ = n := Option.some.inj h
    rfl

/-- **Forests in a row.**  Heads that begin no deeper than any of the others nest behind the forest of
    those. -/
theorem nest_append {heads more : List Head} {level : Int}
    (hheads : ∀ h ∈ heads, level ≤ h.statement.level)
    (hmore : ∀ h ∈ more.head?, h.statement.level ≤ level) :
    nest (heads ++ more) = nest heads ++ nest more := by
  have hfirst : ∀ n ∈ (nest more).head?, n.level ≤ level := by
    intro n hn
    have hlevel := level_head_nest hn
    cases more with
    | nil => exact nomatch hlevel
    | cons h more =>
      have heq : h.statement.level = n.level := Option.some.inj hlevel
      exact heq ▸ hmore h rfl
  induction heads with
  | nil => rfl
  | cons head heads ih =>
    have hlevel : level ≤ head.statement.level := hheads head List.mem_cons_self
    show graft head (nest (heads ++ more)) = graft head (nest heads) ++ nest more
    rw [ih fun h hh => hheads h (List.mem_cons_of_mem head hh), graft_append]
    intro n hn
    exact Int.le_trans (hfirst n hn) hlevel

/-- Each tree that some heads nest to has one of them as its own. -/
theorem head_mem_of_nest {heads : List Head} {n : Node} (h : n ∈ nest heads) : n.head ∈ heads := by
  induction heads with
  | nil => exact absurd h List.not_mem_nil
  | cons head heads ih =>
    rcases List.mem_cons.mp h with rfl | h
    · exact List.mem_cons_self
    · exact List.mem_cons_of_mem head (ih (List.dropWhile_subset _ h))

/-- A head takes the whole forest of others that lie deeper than itself, and is then the only
    tree. -/
theorem nest_cons_of_deeper {head : Head} {heads : List Head}
    (h : ∀ k ∈ heads, head.statement.level < k.statement.level) :
    nest (head :: heads) = [⟨head, none, nest heads⟩] := by
  have hbelow : ∀ n ∈ nest heads, decide (head.statement.level < n.level) = true :=
    fun n hn => decide_eq_true (h n.head (head_mem_of_nest hn))
  have hend : ∀ n ∈ ([] : List Node).head?, decide (head.statement.level < n.level) = false :=
    fun n hn => nomatch hn
  have hspan := span_append hbelow hend
  rw [List.append_nil] at hspan
  show graft head (nest heads) = _
  unfold graft
  dsimp only
  rw [hspan.1, hspan.2]

/-! ## The descent -/

/-- `isDeeperThan level s` — whether the statement `s` lies deeper than `level`, so that a descent
    at that level takes it. -/
def isDeeperThan (level : Int) (s : Statement) : Bool := decide (level < s.level)

/-- Statements that are deeper than `level` are those deeper than a lower level `low`, and behind them
    what is deeper than `level` of the rest. -/
theorem span_deeper {level low : Int} (h : level ≤ low) (ss : List Statement) :
    ss.takeWhile (isDeeperThan level) = ss.takeWhile (isDeeperThan low) ++
        (ss.dropWhile (isDeeperThan low)).takeWhile (isDeeperThan level) ∧
      ss.dropWhile (isDeeperThan level) =
        (ss.dropWhile (isDeeperThan low)).dropWhile (isDeeperThan level) := by
  induction ss with
  | nil => exact ⟨rfl, rfl⟩
  | cons s ss ih =>
    by_cases hlow : isDeeperThan low s = true
    · have hlevel : isDeeperThan level s = true :=
        decide_eq_true (Int.lt_of_le_of_lt h (of_decide_eq_true hlow))
      rw [List.takeWhile_cons_of_pos hlow, List.dropWhile_cons_of_pos hlow,
        List.takeWhile_cons_of_pos hlevel, List.dropWhile_cons_of_pos hlevel, ih.1, ih.2]
      exact ⟨rfl, rfl⟩
    · rw [List.takeWhile_cons_of_neg hlow, List.dropWhile_cons_of_neg hlow]
      exact ⟨rfl, rfl⟩

theorem level_of_mem_takeWhile {level : Int} {s : Statement} {ss : List Statement}
    (h : s ∈ ss.takeWhile (isDeeperThan level)) : level < s.level :=
  of_decide_eq_true (show isDeeperThan level s = true from List.mem_takeWhile_imp h)

/-- Behind the statements that are deeper than `low` comes one at `low` or above it, or none. -/
theorem level_of_head_dropWhile {low : Int} {s : Statement} {ss : List Statement}
    (h : s ∈ (ss.dropWhile (isDeeperThan low)).head?) : s.level ≤ low := by
  have hstop := List.head?_dropWhile_not (isDeeperThan low) ss
  rw [Option.mem_def.mp h] at hstop
  exact Int.not_lt.mp (of_decide_eq_false hstop)

/-- `a.parts` — what a descent gives, apart from the fact that its rest is one of the statements it
    was given. -/
def Attached.parts {given : List Statement} (a : Attached given) : List Node × List Statement :=
  (a.children.toList, a.rest)

/-- **A child and its siblings.**  The statement `s` of `head` stands one level below `level`.  Reading
    `s` and all deeper than `level` behind it is reading what is deeper than `s`, which becomes the
    child's, and then the rest as if `s` were not there. -/
theorem readFrom_child {level : Int} (hlevel : -1 ≤ level) {s : Statement} {head : Head}
    (hs : s.level = level + 1) (hhead : Head.read s = .ok head) (rest : List Statement) :
    (readFrom level (s :: rest.takeWhile (isDeeperThan level))).map nest =
      readFrom s.level (rest.takeWhile (isDeeperThan s.level)) >>= fun below =>
        (readFrom level
          ((rest.dropWhile (isDeeperThan s.level)).takeWhile (isDeeperThan level))).map fun others =>
            ⟨head, none, nest below⟩ :: nest others := by
  have hcheck : checkLevel level s = .ok () := by
    unfold checkLevel
    rw [if_neg (by omega), if_neg (by omega)]
  have hstatement : head.statement = s := (Head.read_ok hhead).1
  rw [readFrom_cons, hcheck, hhead, (span_deeper (show level ≤ s.level by omega) rest).1]
  show ((readFrom s.level (_ ++ _)).map (head :: ·)).map nest = _
  have hfirst : ∀ t ∈ ((rest.dropWhile (isDeeperThan s.level)).takeWhile (isDeeperThan level)).head?,
      t.level ≤ s.level := by
    intro t ht
    suffices hhead : t ∈ (rest.dropWhile (isDeeperThan s.level)).head? from
      level_of_head_dropWhile hhead
    cases hdrop : rest.dropWhile (isDeeperThan s.level) with
    | nil => rw [hdrop] at ht; exact nomatch ht
    | cons u us =>
      rw [hdrop] at ht
      by_cases hu : isDeeperThan level u = true
      · rw [List.takeWhile_cons_of_pos hu] at ht
        exact ht
      · rw [List.takeWhile_cons_of_neg hu] at ht
        exact nomatch ht
  have hlower : ∀ t ∈ rest.takeWhile (isDeeperThan s.level), level ≤ t.level := by
    intro t ht
    have hlt := level_of_mem_takeWhile ht
    omega
  rw [readFrom_append (show level ≤ s.level by omega) hlower fun t ht => hs ▸ hfirst t ht]
  cases hbelow : readFrom s.level (rest.takeWhile (isDeeperThan s.level)) with
  | error f => rfl
  | ok below =>
    cases hothers : readFrom level
        ((rest.dropWhile (isDeeperThan s.level)).takeWhile (isDeeperThan level)) with
    | error f => rfl
    | ok others =>
      show Except.ok (nest (head :: (below ++ others))) =
        Except.ok (⟨head, none, nest below⟩ :: nest others)
      -- none of what becomes the child's stands above the child, and the others begin beside it
      have hdeeper : ∀ k ∈ below, head.statement.level < k.statement.level := by
        intro k hk
        rw [hstatement]
        have hmem : k.statement ∈ rest.takeWhile (isDeeperThan s.level) := by
          rw [← statements_of_readFrom hbelow]
          exact List.mem_map_of_mem hk
        exact level_of_mem_takeWhile hmem
      have hbeside : ∀ k ∈ others.head?, k.statement.level ≤ head.statement.level := by
        intro k hk
        rw [hstatement]
        refine hfirst k.statement ?_
        rw [← statements_of_readFrom hothers, List.head?_map, Option.mem_def.mp hk]
        rfl
      have hheads : ∀ k ∈ head :: below, head.statement.level ≤ k.statement.level := by
        intro k hk
        rcases List.mem_cons.mp hk with rfl | hk
        · exact Int.le_refl _
        · exact Int.le_of_lt (hdeeper k hk)
      rw [← List.cons_append, nest_append hheads hbeside, nest_cons_of_deeper hdeeper]
      rfl

/-- **The descent takes what is deeper, and nests it.**  Behind the children `done`, a node of the level
    `level` gets the forest of the statements in front that are deeper than it; the rest begins at its
    level or above.  Where one of the statements taken is wrong, both ways end with its fault. -/
theorem attach_eq {given : List Statement} {level : Int} (hlevel : -1 ≤ level) (done : Array Node)
    (ss : List Statement) (hsuffix : ss <:+ given) :
    (attach level done ss hsuffix).map Attached.parts =
      (readFrom level (ss.takeWhile (isDeeperThan level))).map fun heads =>
        (done.toList ++ nest heads, ss.dropWhile (isDeeperThan level)) := by
  -- on the number of statements that are left: the child's are fewer, and its siblings' too
  induction hn : ss.length using Nat.strongRecOn generalizing given level done ss with
  | ind n ih =>
    cases ss with
    | nil =>
      rw [attach]
      exact congrArg (fun ns => Except.ok (ns, [])) (List.append_nil _).symm
    | cons s rest =>
      rw [attach]
      rcases Int.lt_trichotomy s.level (level + 1) with habove | hs | hbelow
      · have hnot : ¬isDeeperThan level s = true := by
          intro h
          have hlt : level < s.level := of_decide_eq_true h
          omega
        rw [if_pos habove, List.takeWhile_cons_of_neg hnot, List.dropWhile_cons_of_neg hnot]
        exact congrArg (fun ns => Except.ok (ns, s :: rest)) (List.append_nil _).symm
      · have hdeeper : isDeeperThan level s = true := decide_eq_true (by omega)
        have hnow : s.level ≥ -1 := by omega
        rw [if_neg (by omega), if_neg (by omega), List.takeWhile_cons_of_pos hdeeper,
          List.dropWhile_cons_of_pos hdeeper]
        cases hhead : Head.read s with
        | error f =>
          rw [readFrom_cons, hhead]
          unfold checkLevel
          rw [if_neg (by omega), if_neg (by omega)]
          rfl
        | ok head =>
          have hchild := ih rest.length (by rw [← hn]; exact Nat.lt_succ_self _) hnow #[] rest
            (List.suffix_refl rest) rfl
          have hpasses := readFrom_child hlevel hs hhead rest
          rw [(span_deeper (show level ≤ s.level by omega) rest).2]
          show (attach s.level #[] rest (List.suffix_refl rest) >>= fun below => attach level
            (done.push ⟨head, none, below.children.toList⟩) below.rest _).map _ = _
          generalize readFrom level (s :: rest.takeWhile (isDeeperThan level)) = whole at hpasses ⊢
          cases hbelow : readFrom s.level (rest.takeWhile (isDeeperThan s.level)) with
          | error f =>
            rw [hbelow] at hchild hpasses
            rw [map_error.mp hchild, map_error.mp hpasses]
            rfl
          | ok heads =>
            rw [hbelow] at hchild hpasses
            obtain ⟨below, hattach, hparts⟩ := map_ok.mp hchild
            have hchildren : below.children.toList = nest heads := congrArg Prod.fst hparts
            have hrest : below.rest = rest.dropWhile (isDeeperThan s.level) := congrArg Prod.snd hparts
            have hshorter : below.rest.length < n := by
              rw [← hn]
              exact Nat.lt_succ_of_le below.isSuffix.length_le
            rw [hattach]
            refine (ih _ hshorter hlevel _ below.rest _ rfl).trans ?_
            rw [hchildren, hrest]
            cases hothers : readFrom level
                ((rest.dropWhile (isDeeperThan s.level)).takeWhile (isDeeperThan level)) with
            | error f =>
              rw [hothers] at hpasses
              rw [map_error.mp hpasses]
              rfl
            | ok others =>
              rw [hothers] at hpasses
              obtain ⟨all, rfl, hall⟩ := map_ok.mp hpasses
              show Except.ok ((done.push ⟨head, none, nest heads⟩).toList ++ nest others, _) =
                Except.ok (done.toList ++ nest all, _)
              rw [hall, Array.toList_push, List.append_assoc]
              rfl
      · have hdeeper : isDeeperThan level s = true := decide_eq_true (by omega)
        rw [if_neg (by omega), if_pos hbelow, List.takeWhile_cons_of_pos hdeeper, readFrom_cons]
        unfold checkLevel
        rw [if_neg (by omega), if_pos hbelow]
        rfl

/-- **The tree is that of the two passes:** reading all heads and nesting them gives the tree that
    the descent builds, or the same fault where there is none.  So what is proved of the passes
    holds of it. -/
theorem ofStatements_eq (ss : List Statement) :
    ofStatements ss = (readHeads ss).map fun heads => root (nest heads) := by
  have hdescent := attach_eq (Int.le_refl (-1)) #[] ss (List.suffix_refl ss)
  -- all that the root takes is read first, and what it leaves begins with a negative level
  have hreading : readHeads ss = readFrom (-1) (ss.takeWhile (isDeeperThan (-1))) >>= fun heads =>
      (readFrom (-1) (ss.dropWhile (isDeeperThan (-1)))).map (heads ++ ·) := by
    have hfront : ∀ s ∈ ss.takeWhile (isDeeperThan (-1)), -1 ≤ s.level :=
      fun s hs => Int.le_of_lt (level_of_mem_takeWhile hs)
    have hback : ∀ s ∈ (ss.dropWhile (isDeeperThan (-1))).head?, s.level ≤ -1 + 1 := by
      intro s hs
      have hle := level_of_head_dropWhile hs
      omega
    have hparts := readFrom_append (Int.le_refl (-1)) hfront hback
    rw [List.takeWhile_append_dropWhile] at hparts
    exact hparts
  rw [hreading]
  unfold ofStatements
  cases htaken : readFrom (-1) (ss.takeWhile (isDeeperThan (-1))) with
  | error f =>
    rw [htaken] at hdescent
    rw [map_error.mp hdescent]
    rfl
  | ok heads =>
    rw [htaken] at hdescent
    obtain ⟨⟨children, rest, hsuffix⟩, hattach, hparts⟩ := map_ok.mp hdescent
    have hchildren : children.toList = nest heads := congrArg Prod.fst hparts
    have hrest : rest = ss.dropWhile (isDeeperThan (-1)) := congrArg Prod.snd hparts
    rw [hattach, ← hrest]
    cases rest with
    | nil =>
      show Except.ok (root children.toList) = Except.ok (root (nest (heads ++ [])))
      rw [hchildren, List.append_nil]
    | cons s rest =>
      have hnegative : s.level < 0 := by
        have hhead : s ∈ (ss.dropWhile (isDeeperThan (-1))).head? := by
          rw [← hrest]
          rfl
        have hle := level_of_head_dropWhile hhead
        omega
      show Except.error (Fault.located s.location (.unexpectedLevel s.level)) =
        ((readFrom (-1) (s :: rest)).map (heads ++ ·)).map fun heads => root (nest heads)
      rw [readFrom_cons]
      unfold checkLevel
      rw [if_pos hnegative]
      rfl

/-- Statements that nest do so below a root, which has no statement among them. -/
theorem exists_root_of_ofStatements {ss : List Statement} {n : Node} (h : ofStatements ss = .ok n) :
    ∃ ns, n = root ns := by
  rw [ofStatements_eq] at h
  obtain ⟨heads, -, rfl⟩ := map_ok.mp h
  exact ⟨nest heads, rfl⟩

end Node

end SolidExport
