/-
  No number of a program is a NaN.

  Literals are read from decimals, which are never a NaN, so none stands in the parameters of a tree
  that was read from a text (`ofStatements_noNaN`).  Each machine on the way keeps that: the assembly
  of a literal, the list of parameters, the nesting of the statements.
-/
import SolidExport.Proofs.Double.Order
import SolidExport.Proofs.Node.Descent

namespace SolidExport

open Outcome (bind_ok map_ok foldlM_ok foldlM_some)

/-! ## Literals -/

/-- `v.NoNaN` — the literal `v` is no NaN and has none in it.  Comparisons with a NaN fail in either
    direction, so checks could be passed that should not be. -/
inductive Literal.NoNaN : Literal → Prop where
  | number {line : Int} {x : Float} {text : String} (hx : x.isNaN = false) :
      NoNaN (.number line x text)
  | boolean {line : Int} {value : Bool} : NoNaN (.boolean line value)
  | string {line : Int} {value : String} : NoNaN (.string line value)
  | vector {line : Int} {items : List Literal} (hitems : ∀ v ∈ items, NoNaN v) :
      NoNaN (.vector line items)

namespace Literal

theorem NoNaN.items {v : Literal} (h : v.NoNaN) : ∀ item ∈ v.items, item.NoNaN := by
  cases h with
  | vector hitems => exact hitems
  | number hx =>
    intro item hitem
    rw [List.mem_singleton.mp hitem]
    exact .number hx
  | boolean =>
    intro item hitem
    rw [List.mem_singleton.mp hitem]
    exact .boolean
  | string =>
    intro item hitem
    rw [List.mem_singleton.mp hitem]
    exact .string

theorem NoNaN.toNumber {v : Literal} {x : Float} (h : v.NoNaN) (hx : v.toNumber = .ok x) :
    x.isNaN = false := by
  cases h with
  | number hn =>
    injection hx with hx
    subst hx
    exact hn
  | _ => exact nomatch hx

theorem ofWord?_noNaN {line : Int} {word : String} {v : Literal} (h : ofWord? line word = some v) :
    v.NoNaN := by
  unfold ofWord? at h
  split at h
  · injection h with h
    subst h
    exact .boolean
  · split at h
    · injection h with h
      subst h
      exact .boolean
    · obtain ⟨x, hx, rfl⟩ := Option.map_eq_some_iff.mp h
      obtain ⟨⟨negative, d⟩, -, rfl⟩ := Option.map_eq_some_iff.mp hx
      refine .number ?_
      cases negative with
      | true => exact Double.isNaN_neg (Double.isNaN_toFloat d)
      | false => exact Double.isNaN_toFloat d

/-! ## Assembly -/

/-- `StackNoNaN stack` — no literal on a stack of open vectors has a NaN in it. -/
def StackNoNaN (stack : List (List Literal)) : Prop := ∀ items ∈ stack, ∀ v ∈ items, v.NoNaN

/-- `a.NoNaN` — nothing that was assembled so far has a NaN in it. -/
def Assembly.NoNaN : Assembly → Prop
  | .expecting stack | .opened stack => StackNoNaN stack
  | .completed done stack => done.NoNaN ∧ StackNoNaN stack

theorem StackNoNaN.push {items : List Literal} {stack : List (List Literal)}
    (hitems : ∀ v ∈ items, v.NoNaN) (h : StackNoNaN stack) : StackNoNaN (items :: stack) := by
  intro is his
  rcases List.mem_cons.mp his with rfl | his
  · exact hitems
  · exact h is his

theorem Assembly.begin_noNaN {line : Int} {stack : List (List Literal)} {t : Token} {a : Assembly}
    (hstack : StackNoNaN stack) (h : begin line stack t = some a) : a.NoNaN := by
  cases t with
  | opening =>
    injection h with h
    subst h
    exact hstack.push fun v hv => absurd hv List.not_mem_nil
  | quoted value =>
    injection h with h
    subst h
    exact ⟨.string, hstack⟩
  | word word =>
    obtain ⟨v, hv, rfl⟩ := Option.map_eq_some_iff.mp h
    exact ⟨ofWord?_noNaN hv, hstack⟩
  | closing => exact nomatch h
  | comma => exact nomatch h

/-- The items of the innermost open vector have no NaN in them, together with the one that was just
    completed, and neither have the vectors around it. -/
theorem StackNoNaN.top {done : Literal} {items : List Literal} {stack : List (List Literal)}
    (hdone : done.NoNaN) (h : StackNoNaN (items :: stack)) :
    (∀ v ∈ done :: items, v.NoNaN) ∧ StackNoNaN stack := by
  refine ⟨fun v hv => ?_, fun is his => h is (List.mem_cons_of_mem _ his)⟩
  rcases List.mem_cons.mp hv with rfl | hv
  · exact hdone
  · exact h items List.mem_cons_self v hv

theorem Assembly.step_noNaN {line : Int} {a b : Assembly} {t : Token} (ha : a.NoNaN)
    (h : step line a t = some b) : b.NoNaN := by
  unfold step at h
  split at h
  · exact begin_noNaN ha h
  · injection h with h
    subst h
    refine ⟨.vector fun v hv => absurd hv List.not_mem_nil, fun is his => ?_⟩
    exact ha is (List.mem_cons_of_mem _ his)
  · exact begin_noNaN ha h
  · obtain ⟨hitems, hstack⟩ := StackNoNaN.top ha.1 ha.2
    injection h with h
    subst h
    exact hstack.push hitems
  · obtain ⟨hitems, hstack⟩ := StackNoNaN.top ha.1 ha.2
    injection h with h
    subst h
    exact ⟨.vector fun v hv => hitems v (List.mem_reverse.mp hv), hstack⟩
  · exact nomatch h

/-- A literal that is read has no NaN in it: words for numbers are decimals. -/
theorem read?_noNaN {line : Int} {s : String} {v : Literal} (h : read? line s = some v) :
    v.NoNaN := by
  obtain ⟨ts, -, h⟩ := Option.bind_eq_some_iff.mp h
  obtain ⟨a, ha, h⟩ := Option.bind_eq_some_iff.mp h
  have hstart : (Assembly.expecting []).NoNaN := fun items hitems => absurd hitems List.not_mem_nil
  have hkeeps : a.NoNaN :=
    foldlM_some (fun _ _ _ hs hstep => Assembly.step_noNaN hs hstep) hstart ha
  cases a with
  | completed done stack =>
    cases stack with
    | nil =>
      injection h with h
      subst h
      exact hkeeps.1
    | cons items stack => exact nomatch h
  | _ => exact nomatch h

end Literal

/-! ## Parameters -/

/-- Setting a name brings in its value and no other. -/
theorem Named.mem_set {α : Type} {name : String} {value : α} {l : List (String × α)}
    {p : String × α} (h : p ∈ Named.set name value l) : p.2 = value ∨ p ∈ l := by
  induction l with
  | nil =>
    rw [List.mem_singleton.mp h]
    exact Or.inl rfl
  | cons q rest ih =>
    obtain ⟨n, v⟩ := q
    unfold Named.set at h
    split at h
    · rcases List.mem_cons.mp h with rfl | h
      · exact Or.inl rfl
      · exact Or.inr (List.mem_cons_of_mem _ h)
    · rcases List.mem_cons.mp h with rfl | h
      · exact Or.inr List.mem_cons_self
      · rcases ih h with h | h
        · exact Or.inl h
        · exact Or.inr (List.mem_cons_of_mem _ h)

namespace Params

/-- `p.NoNaN` — no value of the parameters `p` has a NaN in it. -/
def NoNaN (p : Params) : Prop := ∀ b ∈ p.bindings, b.2.NoNaN

theorem NoNaN.get? {p : Params} {name : String} {v : Literal} (h : p.NoNaN)
    (hv : p.get? name = some v) : v.NoNaN := by
  obtain ⟨front, back, hsplit, -⟩ := List.lookup_eq_some_iff.mp hv
  exact h (name, v) (by rw [hsplit]; exact List.mem_append_right _ List.mem_cons_self)

theorem addPiece_noNaN {line : Int} {index : Nat} {p : Params} {piece : Piece} (h : p.NoNaN) :
    (p.addPiece line index piece).NoNaN := by
  unfold addPiece
  simp only
  split
  · rename_i v hv
    intro b hb
    rcases Named.mem_set hb with hb | hb
    · rw [hb]
      exact Literal.read?_noNaN hv
    · exact h b hb
  · exact h

theorem read_noNaN (line : Int) (list : String) : (read line list).NoNaN := by
  unfold read
  simp only
  generalize ((Piece.split list).filter (!·.isBlank)).zipIdx = pieces
  have hrun : ∀ p : Params, p.NoNaN →
      (pieces.foldl (fun p q => p.addPiece line q.2 q.1) p).NoNaN := by
    induction pieces with
    | nil => exact fun p hp => hp
    | cons q pieces ih => exact fun p hp => ih _ (addPiece_noNaN hp)
  exact hrun _ fun b hb => absurd hb List.not_mem_nil

end Params

/-! ## Trees -/

theorem Head.read_noNaN {s : Statement} {head : Head} (h : Head.read s = .ok head) :
    head.params.NoNaN := by
  obtain ⟨signature, hsignature, rfl⟩ := map_ok.mp h
  show signature.params.NoNaN
  unfold Signature.read at hsignature
  simp only at hsignature
  split at hsignature
  · split at hsignature
    · injection hsignature with h
      subst h
      exact fun b hb => absurd hb List.not_mem_nil
    · split at hsignature
      · split at hsignature
        · injection hsignature with h
          subst h
          exact Params.read_noNaN _ _
        · exact nomatch hsignature
      · exact nomatch hsignature
  · exact nomatch hsignature

namespace Node

/-- `n.NoNaN` — no parameter in the tree `n` has a NaN in it. -/
inductive NoNaN : Node → Prop where
  | mk {head : Head} {transform : Option Matrix} {children : List Node}
      (hparams : head.params.NoNaN) (hchildren : ∀ c ∈ children, NoNaN c) :
      NoNaN ⟨head, transform, children⟩

theorem NoNaN.param? {n : Node} {name : String} {v : Literal} (h : n.NoNaN)
    (hv : n.param? name = some v) : v.NoNaN := by
  cases h with
  | mk hparams _ => exact hparams.get? hv

theorem NoNaN.children {n c : Node} (h : n.NoNaN) (hc : c ∈ n.children) : c.NoNaN := by
  cases h with
  | mk _ hchildren => exact hchildren c hc

theorem readHeads_noNaN {statements : List Statement} {heads : List Head}
    (h : readHeads statements = .ok heads) : ∀ head ∈ heads, head.params.NoNaN := by
  obtain ⟨r, hr, rfl⟩ := map_ok.mp h
  have hstep : ∀ (r : Reading) (s : Statement) (r' : Reading), s ∈ statements →
      (∀ head ∈ r.heads.toList, head.params.NoNaN) → r.step s = .ok r' →
      ∀ head ∈ r'.heads.toList, head.params.NoNaN := by
    intro r s r' _ hkeeps hstep
    obtain ⟨_, -, hstep⟩ := bind_ok.mp hstep
    obtain ⟨head, hhead, hstep⟩ := bind_ok.mp hstep
    injection hstep with hstep
    subst hstep
    intro head' hmem
    rw [Array.toList_push] at hmem
    rcases List.mem_append.mp hmem with hmem | hmem
    · exact hkeeps head' hmem
    · rw [List.mem_singleton.mp hmem]
      exact Head.read_noNaN hhead
  exact foldlM_ok hstep (fun head hhead => absurd hhead List.not_mem_nil) hr

theorem nest_noNaN {heads : List Head} (h : ∀ head ∈ heads, head.params.NoNaN) :
    ∀ n ∈ nest heads, n.NoNaN := by
  induction heads with
  | nil => exact fun n hn => absurd hn List.not_mem_nil
  | cons head heads ih =>
    have hforest := ih fun head' hmem => h head' (List.mem_cons_of_mem _ hmem)
    intro n hn
    rcases List.mem_cons.mp hn with rfl | hn
    · exact .mk (h head List.mem_cons_self) fun c hc => hforest c (List.takeWhile_subset _ hc)
    · exact hforest n (List.dropWhile_subset _ hn)

/-- **A tree that is read has no NaN in it**, in any parameter of any node. -/
theorem ofStatements_noNaN {statements : List Statement} {root : Node}
    (h : ofStatements statements = .ok root) : root.NoNaN := by
  rw [ofStatements_eq] at h
  obtain ⟨heads, hheads, rfl⟩ := map_ok.mp h
  exact .mk (fun b hb => absurd hb List.not_mem_nil) (nest_noNaN (readHeads_noNaN hheads))

end Node

end SolidExport
