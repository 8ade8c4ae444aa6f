/-
  What was done with a tree before has no part in what is done with it next.

  A session is a tree and a document.  Calls convert a node of the tree, assign a transformation to
  one, or ask for its dimension or the number of its operands, in any order and as often as wanted; a
  conversion may fail half-way, and what it wrote until then stays.  Whatever the calls, they change
  nothing of the tree but transformations (`bare_call`, `bare_run`).  Since writing reads no
  transformation, a conversion gives and adds what it would if the tree had just been built
  (`convert_of_bare_eq`).
-/
import SolidExport.Proofs.Emission.Bare
import SolidExport.Proofs.Node.Outline
import SolidExport.Session

namespace SolidExport

/-! ## One place of a tree changed -/

/-- Changing the item `i` of a list does not show in a `view` that does not show the change. -/
theorem map_modify {α β : Type} {items : List α} {i : Nat} {change : α → α} {view : α → β}
    (h : ∀ a, items[i]? = some a → view (change a) = view a) :
    (items.modify i change).map view = items.map view := by
  refine List.ext_getElem? fun j => ?_
  rw [List.getElem?_map, List.getElem?_map, List.getElem?_modify]
  by_cases hij : i = j
  · subst hij
    cases hi : items[i]? with
    | none => rfl
    | some a =>
      show some (view (if i = i then change a else a)) = some (view a)
      rw [if_pos rfl, h a hi]
  · cases items[j]? with
    | none => rfl
    | some a =>
      show some (view (if i = j then change a else a)) = some (view a)
      rw [if_neg hij]

namespace Node

variable {f : Node → Node} {n m : Node} {p : List Nat}

/-- The bare tree does not show a change `f` at a place where the bare node does not show it. -/
theorem bare_modifyAt (h : ∀ m, n.at? p = some m → (f m).bare = m.bare) :
    (n.modifyAt f p).bare = n.bare := by
  induction p generalizing n with
  | nil => exact h n rfl
  | cons i p ih =>
    have hchildren : (n.children.modify i (modifyAt f p)).map bare = n.children.map bare := by
      refine map_modify fun c hc => ih fun m hm => h m ?_
      rw [at?_cons hc, hm]
    rw [bare_eq n, bare_eq]
    show (⟨n.head, none, bareAll (n.children.modify i (modifyAt f p))⟩ : Node) = _
    rw [bareAll_eq, bareAll_eq, hchildren]

/-- Two changes at one place are one change, the second after the first. -/
theorem modifyAt_modifyAt (f g : Node → Node) (n : Node) (p : List Nat) :
    (n.modifyAt f p).modifyAt g p = n.modifyAt (fun m => g (f m)) p := by
  induction p generalizing n with
  | nil => rfl
  | cons i p ih =>
    have hchanges : modifyAt g p ∘ modifyAt f p = modifyAt (fun m => g (f m)) p := funext ih
    show { n with children := (n.children.modify i (modifyAt f p)).modify i (modifyAt g p) } = _
    rw [List.modify_modify_eq, hchanges]
    rfl

/-- At the place of a change stands the changed node, if there was one. -/
theorem at?_modifyAt (hm : n.at? p = some m) : (n.modifyAt f p).at? p = some (f m) := by
  induction p generalizing n with
  | nil =>
    injection hm with hm
    subst hm
    rfl
  | cons i p ih =>
    obtain ⟨c, hc, hm⟩ := at?_cons_eq_some.mp hm
    have hchild : (n.children.modify i (modifyAt f p))[i]? = some (c.modifyAt f p) := by
      rw [List.getElem?_modify, hc]
      show some (if i = i then _ else _) = _
      rw [if_pos rfl]
    show ((n.children.modify i (modifyAt f p))[i]?).bind (·.at? p) = _
    rw [hchild]
    exact ih hm

/-- The bare tree has bare nodes in the same places. -/
theorem at?_bare (n : Node) (p : List Nat) : n.bare.at? p = (n.at? p).map bare := by
  induction p generalizing n with
  | nil => rfl
  | cons i p ih =>
    show (n.bare.children[i]?).bind (·.at? p) = ((n.children[i]?).bind (·.at? p)).map bare
    rw [bare_children, List.getElem?_map]
    cases n.children[i]? with
    | none => rfl
    | some c => exact ih c

/-- Trees that differ in transformations alone have nodes in the same places, which differ in
    transformations alone. -/
theorem at?_of_bare_eq (h : n.bare = m.bare) (p : List Nat) :
    (n.at? p = none ∧ m.at? p = none) ∨
      ∃ a b, n.at? p = some a ∧ m.at? p = some b ∧ a.bare = b.bare := by
  have hsame : (n.at? p).map bare = (m.at? p).map bare := by rw [← at?_bare, h, at?_bare]
  cases hn : n.at? p with
  | none =>
    rw [hn] at hsame
    exact Or.inl ⟨rfl, Option.map_eq_none_iff.mp hsame.symm⟩
  | some a =>
    rw [hn] at hsame
    obtain ⟨b, hb, hbare⟩ := Option.map_eq_some_iff.mp hsame.symm
    exact Or.inr ⟨a, b, rfl, hb, hbare.symm⟩

/-- Two trees with one bare tree show the same at every place, to a `view` that bare nodes show. -/
theorem map_at?_of_bare_eq {α : Type} {view : Node → α} (hview : ∀ n, view n.bare = view n)
    (h : n.bare = m.bare) (p : List Nat) : (n.at? p).map view = (m.at? p).map view := by
  rcases at?_of_bare_eq h p with ⟨hn, hm⟩ | ⟨a, b, hn, hm, hbare⟩
  · rw [hn, hm]
  · rw [hn, hm, Option.map_some, Option.map_some, ← hview, hbare, hview]

/-- A tree that was just built is bare: no transformation was written for it yet. -/
theorem IsDocument.bare_eq_self {root : Node} (h : root.IsDocument) : root.bare = root := by
  have hread : ∀ {level : Int} {n : Node}, n.IsRead level → n.bare = n := by
    intro level n hn
    induction hn with
    | mk _ _ _ ih =>
      rw [bare_eq, bareAll_eq, List.map_congr_left ih, List.map_id']
  obtain ⟨ns, rfl, hns⟩ := h
  rw [bare_eq, bareAll_eq]
  show (⟨_, none, ns.map bare⟩ : Node) = _
  rw [List.map_congr_left fun n hn => hread (hns n hn), List.map_id']
  rfl

end Node

/-! ## Calls -/

namespace Session

/-- What is done with a session.  Nodes are named by their paths, since converting changes them. -/
inductive Call where
  | convert (path : List Nat) (o : EmitOptions)
  | assignTransform (path : List Nat) (m : Matrix)
  | dimension (path : List Nat)
  | countChildren (path : List Nat)
  /-- Goes on with another document. -/
  | takeUp (document : Element)

/-- What a call gives back, beside the session that it leaves. -/
inductive Answer where
  | converted (result : Except Failure String)
  | dimension (d : Except Fault (Option Dimension))
  | count (k : Nat)

/-- `s.call c` — the session after the call `c`, and its answer.  Where no node stands at the path,
    nothing is done. -/
def call (s : Session) : Call → Session × Option Answer
  | .convert path o => match s.root.at? path with
    | some n => ((s.convert o path n).1, some (.converted (s.convert o path n).2))
    | none => (s, none)
  | .assignTransform path m => (s.assignTransform path m, none)
  | .dimension path => (s, (s.root.at? path).map fun n => .dimension n.dimension)
  | .countChildren path => (s, (s.root.at? path).map fun n => .count n.countChildren)
  | .takeUp document => ({ s with document := document }, none)

/-- `s.run calls` — the session after some calls in a row. -/
def run (s : Session) (calls : List Call) : Session := calls.foldl (fun s c => (s.call c).1) s

variable {s : Session} {o : EmitOptions} {path : List Nat} {n : Node}

theorem call_convert (hn : s.root.at? path = some n) : s.call (.convert path o)
    = ((s.convert o path n).1, some (.converted (s.convert o path n).2)) := by
  rw [call, hn]

theorem call_missing (hn : s.root.at? path = none) : s.call (.convert path o) = (s, none) := by
  rw [call, hn]

/-- A conversion puts what it leaves of the node in the place of the node, and changes nothing else
    of the tree. -/
theorem root_convert {left : Node} (hleft : (emitRoot o n).nodes = [left]) (s : Session)
    (path : List Nat) : (s.convert o path n).1.root = s.root.modifyAt (fun _ => left) path := by
  show s.root.modifyAt (fun m => (emitRoot o n).nodes.head?.getD m) path = _
  rw [hleft]
  rfl

/-- **The step lemma.**  A call changes nothing of the tree but transformations. -/
theorem bare_call (s : Session) (c : Call) : (s.call c).1.root.bare = s.root.bare := by
  cases c with
  | convert path o =>
    cases hn : s.root.at? path with
    | none => rw [call_missing hn]
    | some n =>
      obtain ⟨left, hleft, hbare, -⟩ := exists_left_emitRoot o n
      rw [call_convert hn]
      dsimp only
      rw [root_convert hleft]
      refine Node.bare_modifyAt fun m hm => ?_
      rw [hn] at hm
      injection hm with hm
      subst hm
      exact hbare
  | assignTransform path m =>
    refine Node.bare_modifyAt fun n _ => ?_
    rw [Node.bare_eq, Node.bare_eq n]
    rfl
  | dimension path => rfl
  | countChildren path => rfl
  | takeUp document => rfl

/-- **The run lemma.**  Calls in a row change nothing of the tree but transformations. -/
theorem bare_run (s : Session) (calls : List Call) : (s.run calls).root.bare = s.root.bare := by
  induction calls generalizing s with
  | nil => rfl
  | cons c calls ih => exact (ih (s.call c).1).trans (s.bare_call c)

/-! ## What a conversion adds -/

/-- `Adds s done es ws` — the session `done` is `s` with the elements `es` added to its document,
    behind those that are there, and with the warnings `ws` behind its own. -/
structure Adds (s done : Session) (es : List Element) (ws : List Warning) : Prop where
  tag : done.document.tag = s.document.tag
  attributes : done.document.attributes = s.document.attributes
  children : done.document.children = s.document.children ++ es
  warnings : done.warnings = s.warnings ++ ws

theorem adds_nothing (s : Session) : Adds s s [] [] :=
  ⟨rfl, rfl, (List.append_nil _).symm, (List.append_nil _).symm⟩

theorem adds_convert (s : Session) (o : EmitOptions) (path : List Nat) (n : Node) :
    Adds s (s.convert o path n).1 (emitRoot o n).elements (emitRoot o n).warnings :=
  ⟨rfl, rfl, rfl, rfl⟩

/-- The result of a conversion depends on what is written alone, and not on the session or the
    path. -/
theorem result_convert {m : Node} (h : (emitRoot o n).output = (emitRoot o m).output) (s t : Session)
    (p q : List Nat) : (s.convert o p n).2 = (t.convert o q m).2 := by
  obtain ⟨helements, -, hfailure⟩ := Emission.output_eq.mp h
  unfold convert
  dsimp only
  rw [helements, hfailure]

/-- A root is refused before anything is written, or it gives one element, whether its children fail
    or not. -/
theorem elements_emitRoot (o : EmitOptions) (n : Node) :
    (∃ f, rootTarget n = .error f ∧ (emitRoot o n).elements = [] ∧
      (emitRoot o n).failure = some (.fault f)) ∨
    ∃ target e, rootTarget n = .ok target ∧ (emitRoot o n).elements = [e] := by
  unfold emitRoot
  cases rootTarget n with
  | error f => exact Or.inl ⟨f, rfl, rfl, rfl⟩
  | ok target => exact Or.inr ⟨target, _, rfl, rfl⟩

/-- A root gives one element exactly if it has a dimension and its operands agree. -/
theorem length_elements_emitRoot (o : EmitOptions) (n : Node) :
    (emitRoot o n).elements.length = 1 ↔
      ∃ d, n.dimension = .ok (some d) ∧ Shape.checkUniform n (unionTag d) = .ok () := by
  rcases elements_emitRoot o n with ⟨f, htarget, hnone, -⟩ | ⟨target, e, htarget, hone⟩
  · rw [hnone]
    refine iff_of_false (by decide) ?_
    rintro ⟨d, hd, huniform⟩
    rw [rootTarget_of_uniform hd huniform] at htarget
    exact nomatch htarget
  · rw [hone]
    refine iff_of_true rfl ?_
    obtain ⟨d, hd, rfl, huniform⟩ := rootTarget_ok htarget
    exact ⟨d, hd, huniform⟩

/-- A conversion that succeeds gives the tag of the one element that it adds to the document. -/
theorem elements_of_result {tag : String} (h : (s.convert o path n).2 = .ok tag) :
    ∃ e, (emitRoot o n).elements = [e] ∧ e.tag = tag := by
  unfold convert at h
  dsimp only at h
  rcases elements_emitRoot o n with ⟨f, -, -, hfailure⟩ | ⟨target, e, -, hone⟩
  · rw [hfailure] at h
    exact nomatch h
  · refine ⟨e, hone, ?_⟩
    rw [hone] at h
    cases hf : (emitRoot o n).failure with
    | some f => rw [hf] at h; exact nomatch h
    | none =>
      rw [hf] at h
      exact Except.ok.inj h

/-- Converting a node again leaves the tree as it is: the transformations are there already. -/
theorem root_convert_again (hn : s.root.at? path = some n) :
    ((s.convert o path n).1.call (.convert path o)).1.root = (s.convert o path n).1.root := by
  obtain ⟨left, hleft, -, hagain⟩ := exists_left_emitRoot o n
  have hroot := root_convert hleft s path
  have hplace : (s.convert o path n).1.root.at? path = some left := by
    rw [hroot]
    exact Node.at?_modifyAt hn
  rw [call_convert hplace]
  dsimp only
  rw [root_convert hagain, hroot, Node.modifyAt_modifyAt]

/-- **What a call gives back depends on the bare tree alone**, so calls before it make no
    difference. -/
theorem answer_of_bare_eq {s t : Session} (h : s.root.bare = t.root.bare) (c : Call) :
    (s.call c).2 = (t.call c).2 := by
  cases c with
  | convert path o =>
    rcases Node.at?_of_bare_eq h path with ⟨hs, ht⟩ | ⟨n, m, hs, ht, hbare⟩
    · rw [call_missing hs, call_missing ht]
    · have houtput : (emitRoot o n).output = (emitRoot o m).output := by
        rw [← output_emitRoot, hbare, output_emitRoot]
      rw [call_convert hs, call_convert ht, result_convert houtput]
  | assignTransform path m => rfl
  | dimension path =>
    exact Node.map_at?_of_bare_eq (fun n => congrArg Answer.dimension n.dimension_bare) h path
  | countChildren path =>
    exact Node.map_at?_of_bare_eq (fun n => congrArg Answer.count n.countChildren_bare) h path
  | takeUp document => rfl

/-! ## History -/

/-- **A conversion depends on the bare tree alone**: its result, and what it adds, are those of the tree
    `root`. -/
theorem convert_of_bare_eq {t : Session} {root : Node} (h : t.root.bare = root.bare)
    (hn : root.at? path = some n) (o : EmitOptions) :
    ∃ done, t.call (.convert path o)
        = (done, some (.converted ((start root).convert o path n).2)) ∧
      Adds t done (emitRoot o n).elements (emitRoot o n).warnings ∧
      (done.call (.convert path o)).1.root = done.root := by
  rcases Node.at?_of_bare_eq h path with ⟨-, hnone⟩ | ⟨m, n', hm, hn', hbare⟩
  · rw [hn] at hnone
    exact nomatch hnone
  · rw [hn] at hn'
    injection hn' with hn'
    subst hn'
    have houtput : (emitRoot o m).output = (emitRoot o n).output := by
      rw [← output_emitRoot, hbare, output_emitRoot]
    obtain ⟨helements, hwarnings, -⟩ := Emission.output_eq.mp houtput
    refine ⟨_, ?_, ?_, root_convert_again hm⟩
    · rw [call_convert hm, result_convert houtput]
    · rw [← helements, ← hwarnings]
      exact adds_convert t o path m

/-- **Conversion does not depend on history and only adds.**  After any calls, every answer is the one
    that the tree would give if it had just been built; no call changes the head of a node or its
    children.  A conversion adds to the document and to the warnings what it adds where nothing was done
    before: one element if it succeeds, and none exactly if the root has no dimension or its operands do
    not agree.  Doing it again leaves the tree as it is. -/
theorem convert_ignores_history (s : Session) (calls : List Call) (path : List Nat)
    (o : EmitOptions) :
    (∀ ss, Node.ofStatements ss = .ok s.root → s.root.bare = s.root) ∧
    (∀ c, ((s.run calls).call c).2 = ((start s.root.bare).call c).2) ∧
    (∀ p, ((s.run calls).root.at? p).map (fun n => (n.head, n.children.length))
      = (s.root.at? p).map fun n => (n.head, n.children.length)) ∧
    ∃ (fresh done : Session) (answer : Option Answer) (es : List Element) (ws : List Warning),
      (start s.root.bare).call (.convert path o) = (fresh, answer) ∧
      (s.run calls).call (.convert path o) = (done, answer) ∧
      Adds (start s.root.bare) fresh es ws ∧ Adds (s.run calls) done es ws ∧
      es.length ≤ 1 ∧
      (∀ tag, answer = some (.converted (.ok tag)) → ∃ e, es = [e] ∧ e.tag = tag) ∧
      (∀ n, s.root.at? path = some n → (es.length = 1 ↔
        ∃ d, n.dimension = .ok (some d) ∧ Shape.checkUniform n (unionTag d) = .ok ())) ∧
      (done.call (.convert path o)).1.root = done.root := by
  have hbuilt : (start s.root.bare).root.bare = s.root.bare := s.root.bare_bare
  refine ⟨fun ss hss => (Node.ofStatements_ok hss).1.bare_eq_self,
    answer_of_bare_eq ((bare_run s calls).trans hbuilt.symm), fun p => ?_, ?_⟩
  · refine Node.map_at?_of_bare_eq (fun n => ?_) (bare_run s calls) p
    rw [Node.bare_head, Node.bare_children, List.length_map]
  · cases hn : s.root.at? path with
    | none =>
      have hnow : (s.run calls).root.at? path = none := by
        rcases Node.at?_of_bare_eq (bare_run s calls) path with ⟨hnone, -⟩ | ⟨_, _, -, hsome, -⟩
        · exact hnone
        · rw [hn] at hsome
          exact nomatch hsome
      have hfresh : (start s.root.bare).root.at? path = none := by
        show s.root.bare.at? path = none
        rw [Node.at?_bare, hn]
        rfl
      -- the path leads nowhere, before and after
      refine ⟨_, _, _, [], [], call_missing hfresh, call_missing hnow, adds_nothing _, adds_nothing _,
        Nat.zero_le 1, fun tag h => (nomatch h), fun n h => (nomatch h), ?_⟩
      rw [call_missing hnow]
    | some n =>
      -- both trees have the bare tree of the one that the session began with
      obtain ⟨fresh, hfresh, haddsFresh, -⟩ := convert_of_bare_eq hbuilt hn o
      obtain ⟨done, hdone, hadds, hagain⟩ := convert_of_bare_eq (bare_run s calls) hn o
      refine ⟨fresh, done, _, _, _, hfresh, hdone, haddsFresh, hadds, ?_, ?_, ?_, hagain⟩
      · rcases elements_emitRoot o n with ⟨_, -, hnone, -⟩ | ⟨_, e, -, hone⟩
        · rw [hnone]
          exact Nat.zero_le 1
        · rw [hone]
          exact Nat.le_refl 1
      · intro tag h
        injection h with h
        injection h with h
        exact elements_of_result h
      · intro m hm
        injection hm with hm
        subst hm
        exact length_elements_emitRoot o n

end Session

end SolidExport
