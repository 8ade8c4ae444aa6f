/-
  Trees on other lines, and trees of texts in a row.

  A signature that is read on a line further down gives the same literals there (`Head.read_raise`).
  Statements that nest and follow others that nest begin at level zero, so they take no part in the
  trees before them: the forest of both is one forest behind the other (`ofStatements_concat`).
-/
import SolidExport.Proofs.Line.Scan

namespace SolidExport

open Outcome (bind_ok)

/-! ## Literals -/

namespace Literal

mutual

/-- `v.raise k` — the literal `v` as it is read `k` lines further down: its line and those of its
    items are other ones, and nothing else. -/
def raise (k : Nat) : Literal → Literal
  | .number line value text => .number (line + k) value text
  | .boolean line value => .boolean (line + k) value
  | .string line value => .string (line + k) value
  | .vector line items => .vector (line + k) (raiseAll k items)

/-- `raiseAll k vs` — the literals `vs` as they are read `k` lines further down. -/
def raiseAll (k : Nat) : List Literal → List Literal
  | [] => []
  | v :: vs => v.raise k :: raiseAll k vs

end

variable {k : Nat}

theorem raiseAll_eq_map (vs : List Literal) : raiseAll k vs = vs.map (raise k) := by
  induction vs with
  | nil => rw [raiseAll, List.map_nil]
  | cons v vs ih => rw [raiseAll, ih, List.map_cons]

theorem raise_vector (line : Int) (items : List Literal) :
    raise k (.vector line items) = .vector (line + k) (items.map (raise k)) := by
  rw [raise, raiseAll_eq_map]

theorem ofWord?_raise (line : Int) (word : String) :
    ofWord? (line + k) word = (ofWord? line word).map (raise k) := by
  unfold ofWord?
  split
  · rw [Option.map_some, raise]
  · split
    · rw [Option.map_some, raise]
    · cases Decimal.readFloat? word.toList with
      | none => rfl
      | some value => simp [raise]

namespace Assembly

/-- `a.raise k` — what the assembly `a` has so far, if the text stands `k` lines further down. -/
def raise (k : Nat) : Assembly → Assembly
  | .expecting stack => .expecting (stack.map (·.map (Literal.raise k)))
  | .opened stack => .opened (stack.map (·.map (Literal.raise k)))
  | .completed done stack => .completed (done.raise k) (stack.map (·.map (Literal.raise k)))

theorem begin_raise (line : Int) (stack : List (List Literal)) (t : Token) :
    begin (line + k) (stack.map (·.map (Literal.raise k))) t = (begin line stack t).map (raise k) := by
  cases t with
  | opening => rfl
  | quoted value => simp [begin, raise, Literal.raise]
  | word word =>
    dsimp only [begin]
    rw [ofWord?_raise]
    cases ofWord? line word with
    | none => rfl
    | some v => rfl
  | closing => rfl
  | comma => rfl

theorem step_raise (line : Int) (a : Assembly) (t : Token) :
    step (line + k) (a.raise k) t = (step line a t).map (raise k) := by
  cases a with
  | expecting stack => exact begin_raise line stack t
  | opened stack =>
    cases stack with
    | nil =>
      have hbegin : ∀ line, step line (.opened []) t = begin line [] t := by
        intro line
        cases t <;> rfl
      show step (line + k) (.opened []) t = _
      rw [hbegin, hbegin]
      exact begin_raise line [] t
    | cons items stack =>
      cases t with
      | closing => simp [step, raise, raise_vector]
      | opening => exact begin_raise line (items :: stack) .opening
      | comma => exact begin_raise line (items :: stack) .comma
      | quoted value => exact begin_raise line (items :: stack) (.quoted value)
      | word text => exact begin_raise line (items :: stack) (.word text)
  | completed done stack =>
    cases stack with
    | nil => cases t <;> rfl
    | cons items stack =>
      cases t with
      | closing => simp [step, raise, raise_vector]
      | comma => simp [step, raise]
      | _ => rfl

theorem run_raise (line : Int) (a : Assembly) (ts : List Token) :
    ts.foldlM (step (line + k)) (a.raise k) = (ts.foldlM (step line) a).map (raise k) := by
  induction ts generalizing a with
  | nil => rfl
  | cons t ts ih =>
    rw [List.foldlM_cons, List.foldlM_cons, step_raise]
    cases step line a t with
    | none => rfl
    | some a' => exact ih a'

end Assembly

/-- **A literal on another line** is the same literal there, and what is no literal is none there
    either. -/
theorem read?_raise (line : Int) (text : String) :
    read? (line + k) text = (read? line text).map (raise k) := by
  unfold read?
  cases tokens? text.toList with
  | none => rfl
  | some ts =>
    have hrun : ts.foldlM (Assembly.step (line + k)) (.expecting [])
        = (ts.foldlM (Assembly.step line) (.expecting [])).map (Assembly.raise k) :=
      Assembly.run_raise line (.expecting []) ts
    show (ts.foldlM (Assembly.step (line + k)) (.expecting [])).bind Assembly.finish
      = ((ts.foldlM (Assembly.step line) (.expecting [])).bind Assembly.finish).map (raise k)
    rw [hrun]
    cases ts.foldlM (Assembly.step line) (.expecting []) with
    | none => rfl
    | some a =>
      cases a with
      | expecting stack => rfl
      | opened stack => rfl
      | completed done stack =>
        cases stack with
        | nil => rfl
        | cons items stack => rfl

end Literal

/-! ## Parameters -/

/-- Setting a name and changing all values by `g` may be done in either order. -/
theorem Named.set_map {α β : Type} (g : α → β) (name : String) (value : α) (l : List (String × α)) :
    set name (g value) (l.map fun p => (p.1, g p.2))
      = (set name value l).map fun p => (p.1, g p.2) := by
  induction l with
  | nil => rfl
  | cons p rest ih =>
    rw [List.map_cons, set, set]
    split
    · rfl
    · rw [ih, List.map_cons]

theorem Named.lookup_map {α β : Type} (g : α → β) (name : String) (l : List (String × α)) :
    (l.map fun p => (p.1, g p.2)).lookup name = (l.lookup name).map g := by
  induction l with
  | nil => rfl
  | cons p rest ih =>
    rw [List.map_cons, List.lookup_cons, List.lookup_cons, ih]
    split
    · rfl
    · rfl

namespace Params

/-- `p.raise k` — the parameters `p` with the values that they have `k` lines further down. -/
def raise (k : Nat) (p : Params) : Params := ⟨p.bindings.map fun b => (b.1, b.2.raise k)⟩

variable {k : Nat}

theorem get?_raise (p : Params) (name : String) :
    (p.raise k).get? name = (p.get? name).map (Literal.raise k) :=
  Named.lookup_map (Literal.raise k) name p.bindings

theorem addPiece_raise (line : Int) (index : Nat) (p : Params) (piece : Piece) :
    (p.raise k).addPiece (line + k) index piece = (p.addPiece line index piece).raise k := by
  unfold addPiece
  dsimp only
  rw [Literal.read?_raise]
  cases Literal.read? line piece.value with
  | none => rfl
  | some v => exact congrArg Params.mk (Named.set_map (Literal.raise k) _ v p.bindings)

theorem read_raise (line : Int) (list : String) :
    read (line + k) list = (read line list).raise k := by
  have hfold : ∀ (pieces : List (Piece × Nat)) (p : Params),
      pieces.foldl (fun p x => p.addPiece (line + k) x.2 x.1) (p.raise k)
        = (pieces.foldl (fun p x => p.addPiece line x.2 x.1) p).raise k := by
    intro pieces
    induction pieces with
    | nil => exact fun p => rfl
    | cons x pieces ih =>
      intro p
      rw [List.foldl_cons, List.foldl_cons, addPiece_raise, ih]
  exact hfold _ .empty

end Params

/-! ## Heads -/

theorem Signature.read_raise {k : Nat} {line : Int} {text : String} {signature : Signature}
    (h : read line text = .ok signature) :
    read (line + k) text = .ok ⟨signature.tag, signature.params.raise k⟩ := by
  unfold read at h ⊢
  dsimp only at h ⊢
  split at h
  · rename_i htag
    rw [if_pos htag]
    split at h
    · rw [← Except.ok.inj h]
      rfl
    · split at h
      · split at h
        · rename_i hblank
          rw [← Except.ok.inj h, if_pos hblank, Params.read_raise]
        · exact nomatch h
      · exact nomatch h
  · exact nomatch h

namespace Head

/-- `head.raise k` — the head of a statement that stands `k` lines further down. -/
def raise (k : Nat) (head : Head) : Head :=
  ⟨head.statement.raise k, head.tag, head.params.raise k⟩

/-- **A statement on another line** is read as the same head there. -/
theorem read_raise {k : Nat} {s : Statement} {head : Head} (h : Head.read s = .ok head) :
    Head.read (s.raise k) = .ok (head.raise k) := by
  obtain ⟨rfl, hsignature⟩ := read_ok h
  have hraised := Signature.read_raise (k := k) hsignature
  unfold Head.read
  show (Signature.read (head.statement.line + k) head.statement.signature).map _ = _
  rw [hraised]
  rfl

end Head

/-! ## Levels -/

namespace Statement.Nests

theorem level_head {s : Statement} {ss : List Statement} (h : Nests (s :: ss)) : s.level = 0 := by
  have hfollows : Follows (lastLevel []) s.level := Nests.follows h
  have hlow : 0 ≤ s.level := hfollows.1
  have hhigh : s.level ≤ -1 + 1 := hfollows.2
  omega

theorem neg_one_le_lastLevel {ss : List Statement} (h : Nests ss) : -1 ≤ lastLevel ss := by
  rcases List.eq_nil_or_concat ss with rfl | ⟨front, s, rfl⟩
  · exact Int.le_refl _
  · rw [List.concat_eq_append] at h ⊢
    have hlevel : 0 ≤ s.level := h.level_nonneg (by simp)
    rw [lastLevel_append]
    omega

end Statement.Nests

/-! ## Nodes -/

namespace Node

mutual

/-- `n.raise k` — the tree `n` of a text that stands `k` lines further down.  Its transformations do
    not know of lines. -/
def raise (k : Nat) : Node → Node
  | ⟨head, transform, children⟩ => ⟨head.raise k, transform, raiseAll k children⟩

/-- `raiseAll k ns` — the trees `ns` of a text that stands `k` lines further down. -/
def raiseAll (k : Nat) : List Node → List Node
  | [] => []
  | n :: ns => n.raise k :: raiseAll k ns

end

variable {k : Nat}

theorem raiseAll_eq_map (ns : List Node) : raiseAll k ns = ns.map (raise k) := by
  induction ns with
  | nil => rw [raiseAll, List.map_nil]
  | cons n ns ih => rw [raiseAll, ih, List.map_cons]

theorem raise_eq (n : Node) : n.raise k = ⟨n.head.raise k, n.transform, n.children.map (raise k)⟩ := by
  obtain ⟨head, transform, children⟩ := n
  rw [raise, raiseAll_eq_map]

theorem level_raise (n : Node) : (n.raise k).level = n.level := by
  rw [raise_eq]
  rfl

/-! ## Forests in a row -/

theorem graft_raise (head : Head) (forest : List Node) :
    graft (head.raise k) (forest.map (raise k)) = (graft head forest).map (raise k) := by
  have hbelow : (fun n : Node => decide (head.statement.level < n.level)) ∘ raise k
      = fun n => decide (head.statement.level < n.level) := by
    funext n
    show decide (head.statement.level < (n.raise k).level) = _
    rw [level_raise]
  unfold graft
  dsimp only
  rw [List.map_cons, raise_eq, List.takeWhile_map, List.dropWhile_map]
  show (⟨head.raise k, none, ((forest.takeWhile _).map (raise k))⟩ : Node) :: _ = _
  rw [show (fun n : Node => decide ((head.raise k).statement.level < n.level)) ∘ raise k = _ from hbelow]

theorem nest_raise (heads : List Head) :
    nest (heads.map (Head.raise k)) = (nest heads).map (raise k) := by
  induction heads with
  | nil => rfl
  | cons head heads ih =>
    show graft (head.raise k) (nest (heads.map (Head.raise k))) = _
    rw [ih, graft_raise]
    rfl

/-! ## Statements in a row -/

theorem Reading.step_raise {r r' q : Reading} {s : Statement} (h : r.step s = .ok r')
    (hlevel : r.level ≤ q.level) : ∃ head, r' = ⟨r.heads.push head, s.level⟩ ∧
      q.step (s.raise k) = .ok ⟨q.heads.push (head.raise k), s.level⟩ := by
  obtain ⟨hfollows, head, hhead, rfl⟩ := step_ok h
  have hcheck : checkLevel q.level (s.raise k) = .ok () := by
    have hlow := hfollows.1
    have hhigh := hfollows.2
    unfold checkLevel
    show (if s.level < 0 then _ else if q.level + 1 < s.level then _ else _) = _
    rw [if_neg (by omega), if_neg (by omega)]
  refine ⟨head, rfl, ?_⟩
  unfold Reading.step
  rw [hcheck, Head.read_raise hhead]
  rfl

/-- Statements that are read `k` lines further down, behind the heads `front`, give the heads that
    they give by themselves.  A level that they may begin at is not lower than it was. -/
theorem Reading.run_raise {ss : List Statement} {r r' q : Reading}
    (front : List Head) (h : ss.foldlM Reading.step r = .ok r') (hlevel : r.level ≤ q.level)
    (hheads : q.heads.toList = front ++ r.heads.toList.map (Head.raise k)) :
    ∃ q', (ss.map (·.raise k)).foldlM Reading.step q = .ok q' ∧
      q'.heads.toList = front ++ r'.heads.toList.map (Head.raise k) := by
  induction ss generalizing r q with
  | nil =>
    obtain rfl := Except.ok.inj h
    exact ⟨q, rfl, hheads⟩
  | cons s ss ih =>
    rw [List.foldlM_cons] at h
    obtain ⟨next, hnext, h⟩ := bind_ok.mp h
    obtain ⟨head, rfl, hstep⟩ := Reading.step_raise (k := k) hnext hlevel
    rw [List.map_cons, List.foldlM_cons, hstep]
    refine ih h (Int.le_refl _) ?_
    dsimp only
    rw [Array.toList_push, Array.toList_push, hheads, List.map_append, List.append_assoc]
    rfl

theorem readHeads_concat {ss more : List Statement} {heads moreHeads : List Head}
    (h : readHeads ss = .ok heads) (hmore : readHeads more = .ok moreHeads) :
    readHeads (ss ++ more.map (·.raise k)) = .ok (heads ++ moreHeads.map (Head.raise k)) := by
  obtain ⟨r, hr, rfl⟩ := Outcome.map_ok.mp h
  obtain ⟨m, hm, rfl⟩ := Outcome.map_ok.mp hmore
  have hread : ReadSo ss r := readSo_of_run hr
  have hlevel : (-1 : Int) ≤ r.level := hread.level ▸ hread.nests.neg_one_le_lastLevel
  obtain ⟨q, hq, hheads⟩ := Reading.run_raise (q := r) (k := k) r.heads.toList hm hlevel (by simp)
  unfold readHeads
  rw [List.foldlM_append, hr]
  show ((more.map (·.raise k)).foldlM Reading.step r).map _ = _
  rw [hq, ← hheads]
  rfl

/-- **Trees in a row.**  The tree of statements that follow others has their trees behind those of the
others. -/
theorem ofStatements_concat {ss more : List Statement} {root moreRoot : Node}
    (h : ofStatements ss = .ok root) (hmore : ofStatements more = .ok moreRoot) :
    ofStatements (ss ++ more.map (·.raise k))
      = .ok (.root (root.children ++ moreRoot.children.map (raise k))) := by
  rw [ofStatements_eq] at h hmore
  obtain ⟨heads, hheads, rfl⟩ := Outcome.map_ok.mp h
  obtain ⟨moreHeads, hmoreHeads, rfl⟩ := Outcome.map_ok.mp hmore
  obtain ⟨r, hr, rfl⟩ := readHeads_ok hheads
  obtain ⟨m, hm, rfl⟩ := readHeads_ok hmoreHeads
  have hlevels : ∀ head ∈ r.heads.toList, 0 ≤ head.statement.level := fun head hhead =>
    hr.nests.level_nonneg (hr.statements ▸ List.mem_map_of_mem hhead)
  have hfirst : ∀ head ∈ (m.heads.toList.map (Head.raise k)).head?, head.statement.level ≤ 0 := by
    have hstatements := hm.statements
    cases hlist : m.heads.toList with
    | nil => exact fun head hhead => nomatch hhead
    | cons first others =>
      rw [hlist, List.map_cons] at hstatements
      have hnests := hm.nests
      rw [← hstatements] at hnests
      rintro head ⟨⟩
      exact Int.le_of_eq hnests.level_head
  rw [ofStatements_eq, readHeads_concat hheads hmoreHeads]
  show Except.ok (root (nest (r.heads.toList ++ m.heads.toList.map (Head.raise k)))) = _
  rw [nest_append hlevels hfirst, nest_raise]
  rfl

end Node

end SolidExport
