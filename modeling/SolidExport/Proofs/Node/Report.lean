/-
  What reading a node may fail with.

  A fault is blamed on a node of the tree (`Node.Blames`), or, where a literal itself is wrong, on no
  node yet (`Node.Reports`).  Both say too which kinds of fault occur and that the sentence of the fault
  stands in no frame.  Every reading reports (`reports_number`, `reports_extents`, ...); what looks at
  the nodes further down always has a node to blame (`finds_dimension`, `finds_checkUniform`).  No
  reading misses an encoder or operands (`Cause.ofReading`): these are counted where a node is placed.

  A sentence is told from a framed one by its first letter.  Where a sentence begins with the name of
  a parameter (`Cause.subject?`), that is the first letter of the name.
-/
import SolidExport.Matrix
import SolidExport.Proofs.Draft.Failure
import SolidExport.Proofs.Node.Dimension

namespace SolidExport

open Outcome (FailsWith)

/-! ## Sentences -/

/-- `code.ofTree` — whether writing a tree fails with faults of this kind.  The other two kinds come
    from the text and from the nesting, and are found before there is a tree. -/
def FaultCode.ofTree : FaultCode → Bool
  | .csgSyntax | .treeStructure => false
  | _ => true

/-- `IsFramed text` — whether a text begins as the message of a fault with a location does.  A
    sentence that did would make the message look framed twice. -/
def IsFramed (text : String) : Prop := "csg line ".toList <+: text.toList

/-- `OpensPlainly text` — a text that begins otherwise than a framed one.  It is enough to look at
    the first character, and the names of most parameters have another. -/
def OpensPlainly (text : String) : Prop := text.toList.head? ≠ some 'c'

instance (text : String) : Decidable (OpensPlainly text) :=
  inferInstanceAs (Decidable (text.toList.head? ≠ some 'c'))

namespace OpensPlainly

theorem not_isFramed {text : String} (h : OpensPlainly text) : ¬IsFramed text := by
  rintro ⟨rest, hrest⟩
  unfold OpensPlainly at h
  rw [← hrest] at h
  exact h rfl

variable {c : Char} {cs : List Char} {rest : String}

theorem literal (hc : c ≠ 'c') : OpensPlainly (String.ofList (c :: cs)) := by
  unfold OpensPlainly
  rw [String.toList_ofList, List.head?_cons]
  exact fun h => hc (Option.some.inj h)

theorem literal_append (hc : c ≠ 'c') : OpensPlainly (String.ofList (c :: cs) ++ rest) := by
  unfold OpensPlainly
  rw [String.toList_append, String.toList_ofList, List.cons_append, List.head?_cons]
  exact fun h => hc (Option.some.inj h)

theorem name_append {name : String} (hname : OpensPlainly name) (hc : c ≠ 'c') :
    OpensPlainly (name ++ (String.ofList (c :: cs) ++ rest)) := by
  unfold OpensPlainly at hname ⊢
  rw [String.toList_append, List.head?_append]
  cases hfirst : name.toList.head? with
  | none => exact literal_append hc
  | some first =>
    rw [hfirst] at hname
    exact hname

end OpensPlainly

namespace Cause

/-- `c.subject?` — the parameter whose name the sentence of the cause `c` begins with, for the
    causes where it does. -/
def subject? : Cause → Option String
  | .notFinite name _ | .notPositive name _ | .negative name _ => some name
  | _ => none

/-- **The sentences of trees are in no frame:** none begins like the message of a fault with a
    location, so a message tells whether it has one. -/
theorem opensPlainly_text {c : Cause} (hcode : c.code.ofTree = true)
    (hsubject : ∀ name, c.subject? = some name → OpensPlainly name) : OpensPlainly c.text := by
  cases c with
  | bodyWithoutStatement | unterminatedString | unterminatedComment | missingSemicolon
  | unbalancedBrace | unbalancedParenthesis | unterminatedStatement | missingBraces _
  | invalidStatement _ _ | unbalancedParentheses | unexpectedLevel _ | skippedLevel _ _
  | emptySource | emptyTarget _ | misplacedWildcard _ | invalidJson _ _ | notAnObject _
  | targetNotText _ => exact nomatch hcode
  | noRadius _ | polygonHoles _ | twistedExtrusion _ | emptyDocument => exact .literal (by decide)
  | notFinite name _ | notPositive name _ | negative name _ =>
    unfold text
    dsimp only
    rw [String.append_assoc]
    exact .name_append (hsubject name rfl) (by decide)
  | _ =>
    unfold text
    simp only [String.append_assoc]
    exact .literal_append (by decide)

end Cause

/-- `c.OfTree` — the cause `c` is one that writing a tree may end in: it is of such a kind, and its
    sentence is not framed. -/
structure Cause.OfTree (c : Cause) : Prop where
  code : c.code.ofTree = true
  unframed : ¬IsFramed c.text

theorem Cause.OfTree.mk_of_subject {c : Cause} (hcode : c.code.ofTree = true)
    (hsubject : ∀ name, c.subject? = some name → OpensPlainly name) : c.OfTree :=
  ⟨hcode, (Cause.opensPlainly_text hcode hsubject).not_isFramed⟩

/-- `c.ofReading` — whether reading a node ends in the cause `c`: it is one of trees, but misses
    neither an encoder nor operands. -/
def Cause.ofReading : Cause → Bool
  | .tooFewOperands .. | .noEncoder .. => false
  | c => c.code.ofTree

theorem Cause.ofTree_of_ofReading {c : Cause} (h : c.ofReading = true) : c.code.ofTree = true := by
  unfold ofReading at h
  split at h
  · exact nomatch h
  · exact nomatch h
  · exact h

/-! ## Faults of a node -/

namespace Node

/-- `n.Blames f` — the fault `f` is one of trees and its location is that of the node `n` or of one
    below. -/
structure Blames (n : Node) (f : Fault) : Prop where
  cause : f.cause.OfTree
  location : ∃ p m, n.at? p = some m ∧ f.location = some m.location

/-- `n.Finds f` — the fault `f` is found while the node `n` and those below are read, and it has its
    location. -/
structure Finds (n : Node) (f : Fault) : Prop extends n.Blames f where
  reading : f.cause.ofReading = true

/-- `n.Reports f` — reading the node `n` may end in the fault `f`.  What is found in a literal has
    no location yet; it gets that of the node. -/
def Reports (n : Node) (f : Fault) : Prop :=
  n.Finds f ∨ (f.cause.OfTree ∧ f.cause.ofReading = true) ∧ f.location = none

section

variable {n c : Node} {cause : Cause} {f : Fault} {name : String} {v : Literal}

theorem blames_fault (n : Node) (hcode : cause.code.ofTree = true)
    (hsubject : ∀ name, cause.subject? = some name → OpensPlainly name) :
    n.Blames (n.fault cause) :=
  ⟨.mk_of_subject hcode hsubject, [], n, rfl, rfl⟩

theorem finds_fault (n : Node) (hreading : cause.ofReading = true)
    (hsubject : ∀ name, cause.subject? = some name → OpensPlainly name) :
    n.Finds (n.fault cause) :=
  ⟨n.blames_fault (Cause.ofTree_of_ofReading hreading) hsubject, hreading⟩

theorem reports_fault (n : Node) (hreading : cause.ofReading = true)
    (hsubject : ∀ name, cause.subject? = some name → OpensPlainly name) :
    n.Reports (n.fault cause) :=
  Or.inl (n.finds_fault hreading hsubject)

theorem reports_unlocated (n : Node) (hreading : cause.ofReading = true)
    (hsubject : ∀ name, cause.subject? = some name → OpensPlainly name) :
    n.Reports (.unlocated cause) :=
  Or.inr ⟨⟨.mk_of_subject (Cause.ofTree_of_ofReading hreading) hsubject, hreading⟩, rfl⟩

/-- A fault that is blamed on a child, or below it, is blamed below the parent. -/
theorem Blames.of_child (hc : c ∈ n.children) (h : c.Blames f) : n.Blames f := by
  obtain ⟨p, m, hm, hlocation⟩ := h.location
  obtain ⟨i, hi⟩ := List.mem_iff_getElem?.mp hc
  exact ⟨h.cause, i :: p, m, (at?_cons hi p).trans hm, hlocation⟩

theorem Blames.of_at? {m : Node} {p : List Nat} (hm : n.at? p = some m) (h : m.Blames f) :
    n.Blames f := by
  induction p generalizing n with
  | nil =>
    obtain rfl : n = m := Option.some.inj hm
    exact h
  | cons i p ih =>
    obtain ⟨c, hc, hm⟩ := at?_cons_eq_some.mp hm
    exact (ih hm).of_child (List.mem_of_getElem? hc)

theorem Finds.of_child (hc : c ∈ n.children) (h : c.Finds f) : n.Finds f :=
  ⟨h.toBlames.of_child hc, h.reading⟩

/-- **Locating a report** blames the node `n`, unless one below it is to blame already. -/
theorem Reports.locate (h : n.Reports f) : n.Finds (f.locate n.location) := by
  unfold Fault.locate
  rcases h with ⟨⟨hcause, p, m, hm, hlocation⟩, hreading⟩ | ⟨⟨hcause, hreading⟩, hlocation⟩
  · refine ⟨⟨hcause, p, m, hm, ?_⟩, hreading⟩
    rw [hlocation]
    rfl
  · refine ⟨⟨hcause, [], n, rfl, ?_⟩, hreading⟩
    rw [hlocation]
    rfl

/-! ## Literals -/

theorem reports_toNumber (n : Node) (v : Literal) : FailsWith n.Reports v.toNumber := by
  cases v with
  | number line value text => exact .ok value
  | _ => exact .error (n.reports_unlocated rfl nofun)

theorem reports_toInteger (n : Node) (v : Literal) : FailsWith n.Reports v.toInteger :=
  (n.reports_toNumber v).map Double.trunc

theorem reports_toBoolean (n : Node) (v : Literal) : FailsWith n.Reports v.toBoolean := by
  cases v with
  | boolean line value => exact .ok value
  | number line value text => exact .ok _
  | _ => exact .error (n.reports_unlocated rfl nofun)

theorem reports_get (n : Node) (v : Literal) (index : Float) : FailsWith n.Reports (v.get index) := by
  unfold Literal.get
  split
  · exact .ok _
  · cases v with
    | _ => exact .error (n.reports_unlocated rfl nofun)

/-! ## Parameters -/

theorem reports_require : FailsWith n.Reports (n.require name) := by
  unfold require
  split
  · exact .ok _
  · exact .error (n.reports_fault rfl nofun)

theorem reports_finite (hname : OpensPlainly name) : FailsWith n.Reports (n.finite name v) := by
  unfold finite
  split
  · exact .error (n.reports_fault rfl nofun)
  · refine .bind (n.reports_toNumber v) fun x _ => ?_
    split
    · exact .ok x
    · refine .error (n.reports_fault rfl ?_)
      rintro _ ⟨⟩
      exact hname

theorem reports_number (hname : OpensPlainly name) : FailsWith n.Reports (n.number name) :=
  .bind reports_require fun _ _ => reports_finite hname

theorem reports_number? (hname : OpensPlainly name) : FailsWith n.Reports (n.number? name) := by
  unfold number?
  split
  · exact .map some (reports_finite hname)
  · exact .ok none

theorem reports_flag : FailsWith n.Reports (n.flag name) := by
  unfold flag
  split
  · exact .ok false
  · split
    · exact .error (n.reports_fault rfl nofun)
    · exact n.reports_toBoolean _

theorem reports_positive {x : Float} (hname : OpensPlainly name) :
    FailsWith n.Reports (n.positive name x) := by
  unfold positive
  split
  · exact .ok x
  · refine .error (n.reports_fault rfl ?_)
    rintro _ ⟨⟩
    exact hname

theorem reports_nonNegative {x : Float} (hname : OpensPlainly name) :
    FailsWith n.Reports (n.nonNegative name x) := by
  unfold nonNegative
  split
  · exact .ok x
  · refine .error (n.reports_fault rfl ?_)
    rintro _ ⟨⟩
    exact hname

theorem reports_radius? {diameter : String} (hname : OpensPlainly name)
    (hdiameter : OpensPlainly diameter) : FailsWith n.Reports (n.radius? name diameter) := by
  refine .bind (reports_number? hname) fun r _ => ?_
  cases r with
  | some r => exact .ok _
  | none => exact .bind (reports_number? hdiameter) fun _ _ => .ok _

theorem reports_radius {diameter : String} (hname : OpensPlainly name)
    (hdiameter : OpensPlainly diameter) : FailsWith n.Reports (n.radius name diameter) := by
  refine .bind (reports_radius? hname hdiameter) fun r _ => ?_
  cases r with
  | some r => exact reports_positive hname
  | none => exact .error (n.reports_fault rfl nofun)

theorem reports_extents {axes : Nat} (hname : OpensPlainly name) :
    FailsWith n.Reports (n.extents name axes) := by
  refine .bind reports_require fun v _ => ?_
  split
  · exact .bind (reports_finite hname) fun _ _ => .ok _
  · split
    · exact .error (n.reports_fault rfl nofun)
    · exact .mapM fun _ _ => reports_finite hname
  · exact .bind (reports_finite hname) fun _ _ => .ok _

/-! ## Operands -/

theorem finds_ownDimension (n : Node) : FailsWith n.Finds n.ownDimension := by
  unfold ownDimension
  split
  · refine .error (n.finds_fault ?_ ?_)
    · unfold Dimension.unsupportedCause
      split
      · rfl
      · rfl
    · unfold Dimension.unsupportedCause
      split
      · nofun
      · nofun
  · exact .ok _

/-- The search for a dimension among some nodes fails as one of them does, by its tag or below
    it. -/
theorem failsWith_firstDimension {P : Fault → Prop} {ns : List Node}
    (hown : ∀ c ∈ ns, FailsWith P c.ownDimension) (h : ∀ c ∈ ns, FailsWith P c.dimension) :
    FailsWith P (firstDimension ns) := by
  induction ns with
  | nil => exact .ok none
  | cons c ns ih =>
    have hrest : FailsWith P (firstDimension ns) :=
      ih (fun m hm => hown m (List.mem_cons_of_mem c hm)) fun m hm => h m (List.mem_cons_of_mem c hm)
    rw [firstDimension]
    split
    · exact hrest
    · refine .bind (hown c List.mem_cons_self) fun own _ => ?_
      cases own with
      | some d => exact .ok _
      | none =>
        dsimp only
        split
        · refine .bind (h c List.mem_cons_self) fun inner _ => ?_
          cases inner with
          | some d => exact .ok _
          | none => exact hrest
        · exact hrest

/-- **The search for a dimension** that fails names the node that it met and cannot ask.  By
    induction on the tree. -/
theorem finds_dimension (n : Node) : FailsWith n.Finds n.dimension := by
  induction n using Node.induction with
  | step n ih =>
    rw [dimension_eq]
    refine .bind n.finds_ownDimension fun own _ => ?_
    cases own with
    | some d => exact .ok _
    | none =>
      refine failsWith_firstDimension (fun c hc => ?_) fun c hc => ?_
      · exact c.finds_ownDimension.mono fun f => Finds.of_child hc
      · exact (ih c hc).mono fun f => Finds.of_child hc

theorem failsWith_secondDimension {P : Fault → Prop} {ns : List Node}
    (h : ∀ c ∈ ns, FailsWith P c.dimension) (seen : Option Dimension) :
    FailsWith P (Shape.secondDimension seen ns) := by
  induction ns generalizing seen with
  | nil => exact .ok none
  | cons c ns ih =>
    have hrest := ih fun m hm => h m (List.mem_cons_of_mem c hm)
    rw [Shape.secondDimension]
    split
    · exact hrest seen
    · refine .bind (h c List.mem_cons_self) fun d _ => ?_
      split
      · exact hrest _
      · exact hrest _
      · split
        · exact hrest _
        · exact .ok _

theorem finds_checkUniform (n : Node) (target : String) :
    FailsWith n.Finds (Shape.checkUniform n target) := by
  refine .bind (failsWith_secondDimension (fun c hc => ?_) none) fun second _ => ?_
  · exact c.finds_dimension.mono fun f => Finds.of_child hc
  · cases second with
    | none => exact .ok ()
    | some pair => exact .error (n.finds_fault rfl nofun)

/-! ## Matrices -/

theorem reports_readCell (n : Node) (row col : Nat) (v : Literal) :
    FailsWith n.Reports (Matrix.readCell row col v) := by
  refine .bind (n.reports_toNumber v) fun x _ => ?_
  split
  · exact .ok x
  · exact .error (n.reports_unlocated rfl nofun)

theorem reports_readRow (n : Node) (row : Nat) (v : Literal) :
    FailsWith n.Reports (Matrix.readRow row v) := by
  unfold Matrix.readRow
  split
  · exact .mapM fun cell _ => n.reports_readCell row cell.2 cell.1
  · exact .error (n.reports_unlocated rfl nofun)

theorem reports_ofLiteral (n : Node) (v : Literal) : FailsWith n.Reports (Matrix.ofLiteral v) := by
  unfold Matrix.ofLiteral
  split
  · exact .bind (.mapM fun cells _ => n.reports_readRow cells.2 cells.1) fun _ _ => .ok _
  · exact .error (n.reports_unlocated rfl nofun)

end

end Node

end SolidExport
