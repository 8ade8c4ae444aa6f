/-
  What writing a tree may fail with.

  A node fails while its target is looked for, while its matrix is read, while it is encoded
  (`Node.Fails`), or as one of its children fails: so there is always a node that fails by itself
  (`emitNode_fails`).  The faults of a reading are located at the node, if they have no location yet;
  the others have one.  So a failure is a fault that is blamed on a node of the tree, unless a sweep
  is met whose path has no end: from that one the conversion does not come back (`emitRoot_failure`).
-/
import SolidExport.Proofs.Emission.Correspondence
import SolidExport.Proofs.Emission.Target
import SolidExport.Proofs.Shape.Report
import SolidExport.Session

namespace SolidExport

open Outcome (FailsWith)

/-! ## One node -/

namespace Node

theorem blames_planEmpty (o : EmitOptions) (n : Node) (template : String) :
    FailsWith n.Blames (n.planEmpty o template) := by
  unfold planEmpty
  split
  · exact .ok _
  · exact .error (n.blames_fault rfl nofun)

theorem blames_plan (o : EmitOptions) (n : Node) : FailsWith n.Blames (n.plan o) := by
  unfold plan
  split
  · exact .error (n.blames_fault rfl nofun)
  · refine .bind (n.finds_dimension.mono fun _ => Finds.toBlames) fun dimension _ => ?_
    refine .guard (fun _ => n.blames_fault rfl nofun) fun _ => ?_
    split
    · dsimp only
      split
      · exact .ok _
      · exact .error (n.blames_fault rfl nofun)
    · exact n.blames_planEmpty o _

theorem reports_explicitTransform (n : Node) : FailsWith n.Reports n.explicitTransform := by
  unfold explicitTransform
  dsimp only
  split
  · split
    · exact .map some (n.reports_ofLiteral _)
    · exact .ok _
  · split
    · exact .error (n.reports_fault rfl nofun)
    · exact .ok _

theorem finds_rootTarget (n : Node) : FailsWith n.Finds (rootTarget n) := by
  refine .bind n.finds_dimension fun dimension _ => ?_
  split
  · exact .error (n.finds_fault rfl nofun)
  · exact .bind (n.finds_checkUniform _) fun _ _ => .ok _

/-- `n.Stalls o count` — the node `n` is written as a sweep, along a path of `count` segments that no
    counter passes. -/
def Stalls (o : EmitOptions) (n : Node) (count : Float) : Prop :=
  n.target? o = some "sweep" ∧ Shape.NeverEnds n count

/-- `n.Fails o failure` — what the node `n` fails with by itself under the options `o`: its target
    is looked for, its matrix is read, it is encoded, or its path has no end.  These are all
    failures of a conversion that come from a node. -/
inductive Fails (o : EmitOptions) (n : Node) : Failure → Prop where
  | plan {f : Fault} (h : n.plan o = .error f) : n.Fails o (.fault f)
  | transform {target : String} {encoder : Node → Draft Encoding} {f : Fault}
      (hplan : n.plan o = .ok (.encode target encoder)) (h : n.explicitTransform = .error f) :
      n.Fails o (.fault (f.locate n.location))
  | encoder {target : String} {encoder : Node → Draft Encoding} {f : Fault} {element : Element}
      (hplan : n.plan o = .ok (.encode target encoder))
      (h : encoder n (.new target) = .error (.fault f) element) :
      n.Fails o (.fault (f.locate n.location))
  | endless {count : Float} (h : n.Stalls o count) : n.Fails o (.range (.endless count))

/-- **What an encoder fails with**, once it is located: what it found, or that an operand is missing;
    or it never gets to the end of its path. -/
theorem finds_encoder {o : EmitOptions} {n : Node} {target : String}
    {encoder : Node → Draft Encoding} {failure : Failure} {element : Element}
    (hplan : n.plan o = .ok (.encode target encoder))
    (h : encoder n (.new target) = .error failure element) :
    (∃ f, failure = .fault f ∧
      (n.Finds (f.locate n.location) ∨ Shape.MissesOperand n target (f.locate n.location))) ∨
    ∃ count, failure = .range (.endless count) ∧ n.Stalls o count := by
  have hencodes := Shape.encodes_of_encoder? (plan_encode hplan).2
  by_cases hends : target = "sweep" ∧ ∃ count, Shape.NeverEnds n count
  · right
    obtain ⟨htarget, count, hcount⟩ := hends
    rw [Shape.encoder_of_neverEnds n hencodes htarget hcount] at h
    injection h with hfailure _
    refine ⟨count, hfailure.symm, ?_, hcount⟩
    rw [target?, hplan, htarget]
  · left
    have hreports := Shape.reports_encoder n hencodes fun htarget hcount => hends ⟨htarget, hcount⟩
    obtain ⟨f, rfl, hf⟩ := hreports _ _ _ h
    refine ⟨f, rfl, hf.imp Reports.locate fun hmisses => ?_⟩
    obtain ⟨htarget, hcount, rfl⟩ := hmisses
    exact ⟨htarget, hcount, rfl⟩

theorem Fails.blames {o : EmitOptions} {n : Node} {f : Fault} (h : n.Fails o (.fault f)) :
    n.Blames f := by
  cases h with
  | plan h => exact n.blames_plan o f h
  | transform hplan h => exact (n.reports_explicitTransform _ h).locate.toBlames
  | encoder hplan h =>
    obtain ⟨f, hf, hfinds⟩ | ⟨count, hcount, -⟩ := finds_encoder hplan h
    · cases hf
      rcases hfinds with hfinds | ⟨-, -, hfault⟩
      · exact hfinds.toBlames
      · rw [hfault]
        exact n.blames_fault rfl nofun
    · exact nomatch hcount

end Node

/-! ## Trees -/

/-- Nodes in a row that fail do so as one of them does, the first that fails. -/
theorem emitNodes_failure {o : EmitOptions} {ns : List Node} {failure : Failure}
    (h : (emitNodes o ns).failure = some failure) :
    ∃ n ∈ ns, (emitNode o n).failure = some failure := by
  induction ns with
  | nil => exact nomatch h
  | cons n ns ih =>
    rw [emitNodes] at h
    cases hf : (emitNode o n).failure with
    | some g =>
      simp only [hf] at h
      exact ⟨n, List.mem_cons_self, hf.trans h⟩
    | none =>
      simp only [hf] at h
      obtain ⟨m, hm, hfailure⟩ := ih h
      exact ⟨m, List.mem_cons_of_mem n hm, hfailure⟩

/-- **A node that fails holds one that fails by itself**, with the same failure.  By induction on
    the tree: a failure of the children is passed on as it is. -/
theorem emitNode_fails {o : EmitOptions} {n : Node} {failure : Failure}
    (h : (emitNode o n).failure = some failure) :
    ∃ p m, n.at? p = some m ∧ m.Fails o failure := by
  induction n using Node.induction with
  | step n ih =>
    obtain ⟨head, transform, children⟩ := n
    rw [emitNode] at h
    split at h
    · cases h
    · split at h
      · rename_i f hplan
        cases h
        exact ⟨[], _, rfl, .plan hplan⟩
      · cases h
      · rename_i target encoder hplan
        split at h
        · rename_i f hexplicit
          cases h
          exact ⟨[], _, rfl, .transform hplan hexplicit⟩
        · split at h
          · rename_i f element hencode
            cases h
            obtain ⟨g, rfl, -⟩ | ⟨count, rfl, hstalls⟩ := Node.finds_encoder hplan hencode
            · exact ⟨[], _, rfl, .encoder hplan hencode⟩
            · exact ⟨[], _, rfl, .endless hstalls⟩
          · obtain ⟨c, hc, hfailure⟩ := emitNodes_failure h
            obtain ⟨p, m, hm, hfails⟩ := ih c hc hfailure
            obtain ⟨i, hi⟩ := List.mem_iff_getElem?.mp hc
            exact ⟨i :: p, m, (Node.at?_cons hi p).trans hm, hfails⟩

/-- **A root that fails** has no target, or holds a node that fails by itself.  These are all
    failures of writing. -/
theorem emitRoot_fails {o : EmitOptions} {root : Node} {failure : Failure}
    (h : (emitRoot o root).failure = some failure) :
    (∃ f, failure = .fault f ∧ root.Finds f) ∨ ∃ p m, root.at? p = some m ∧ m.Fails o failure := by
  unfold emitRoot at h
  split at h
  · rename_i f htarget
    cases h
    exact .inl ⟨f, rfl, root.finds_rootTarget f htarget⟩
  · obtain ⟨c, hc, hfailure⟩ := emitNodes_failure h
    obtain ⟨p, m, hm, hfails⟩ := emitNode_fails hfailure
    obtain ⟨i, hi⟩ := List.mem_iff_getElem?.mp hc
    exact .inr ⟨i :: p, m, (Node.at?_cons hi p).trans hm, hfails⟩

/-- **A root fails with a fault of its own or of one below**, or it does not come back from a path. -/
theorem emitRoot_failure {o : EmitOptions} {root : Node} {failure : Failure}
    (h : (emitRoot o root).failure = some failure) :
    (∃ f, failure = .fault f ∧ root.Blames f) ∨
      ∃ count p m, failure = .range (.endless count) ∧ root.at? p = some m ∧ m.Stalls o count := by
  obtain ⟨f, rfl, hfinds⟩ | ⟨p, m, hm, hfails⟩ := emitRoot_fails h
  · exact .inl ⟨f, rfl, hfinds.toBlames⟩
  · cases failure with
    | fault f => exact .inl ⟨f, rfl, hfails.blames.of_at? hm⟩
    | range r =>
      cases hfails with
      | endless hstalls => exact .inr ⟨_, p, m, rfl, hm, hstalls⟩

/-! ## Sessions -/

namespace Session

theorem convert_error {s : Session} {o : EmitOptions} {path : List Nat} {n : Node}
    {failure : Failure} :
    (s.convert o path n).2 = .error failure ↔ (emitRoot o n).failure = some failure := by
  unfold convert
  dsimp only
  cases (emitRoot o n).failure with
  | none => exact ⟨nofun, nofun⟩
  | some f =>
    exact ⟨fun h => congrArg some (Except.error.inj h), fun h => congrArg _ (Option.some.inj h)⟩

/-- **A conversion that fails points at a node.**  Wherever in a tree it starts and whatever the
document holds by then, its failure is a fault with the location of that node or of one below, and its
message is a sentence in exactly one frame of that location.  Only where the path of a sweep has no end
there is no fault, since the conversion does not come back from it. -/
theorem convert_points_at_node (s : Session) (o : EmitOptions) (path : List Nat) {n : Node}
    {failure : Failure} (h : (s.convert o path n).2 = .error failure) :
    (∃ (f : Fault) (p : List Nat) (m : Node) (what : String),
      failure = .fault f ∧ n.at? p = some m ∧
      f.location = some ⟨m.line, m.tag, m.head.statement.signature⟩ ∧
      f.message = "csg line " ++ integerText m.line ++ ": " ++ what ++ ": "
        ++ m.head.statement.signature ∧
      ¬IsFramed what ∧
      f.cause.code.label ∈ ["csg_unsupported", "param_missing", "param_malformed", "param_domain",
        "shape_unsupported", "dimension_unresolved"]) ∨
    ∃ (count : Float) (p : List Nat) (m : Node),
      failure = .range (.endless count) ∧ n.at? p = some m ∧ m.Stalls o count := by
  obtain ⟨f, rfl, hcause, p, m, hm, hlocation⟩ | hstalls := emitRoot_failure (convert_error.mp h)
  · refine .inl ⟨f, p, m, f.cause.text, rfl, hm, hlocation, ?_, hcause.unframed, ?_⟩
    · unfold Fault.message
      rw [hlocation]
      rfl
    · have hcode := hcause.code
      cases hkind : f.cause.code with
      | csgSyntax | treeStructure =>
        rw [hkind] at hcode
        exact nomatch hcode
      | _ => simp [FaultCode.label]
  · exact .inr hstalls

/-- A matrix of one row, two nodes down.  Its fault names the line of the node. -/
def shortMatrix : Node :=
  .root [.sample "union" []
    [.sample "multmatrix" [("_p000", .vector 1 [.number 1 1.0 "1"])]
      [.sample "cube" [("size", .number 1 1.0 "1")] []]]]

theorem convert_points_at_node_shortMatrix :
    ∃ (f : Fault) (p : List Nat) (m : Node) (what : String),
      ((start shortMatrix).convert (.sample false) [] shortMatrix).2 = .error (.fault f) ∧
      f.message = "csg line 1: transform matrix must have 4 rows, found 1: multmatrix()" ∧
      shortMatrix.at? p = some m ∧
      f.message = "csg line " ++ integerText m.line ++ ": " ++ what ++ ": "
        ++ m.head.statement.signature ∧
      ¬IsFramed what := by
  have hfails : (emitRoot (.sample false) shortMatrix).failure.map Failure.message
      = some "csg line 1: transform matrix must have 4 rows, found 1: multmatrix()" := by
    decide
  obtain ⟨failure, hfailure, hmessage⟩ := Option.map_eq_some_iff.mp hfails
  have h : ((start shortMatrix).convert (.sample false) [] shortMatrix).2 = .error failure :=
    convert_error.mpr hfailure
  obtain ⟨f, p, m, what, rfl, hm, -, hframe, hwhat, -⟩ | ⟨count, _, _, rfl, -⟩ :=
    convert_points_at_node _ _ _ h
  · exact ⟨f, p, m, what, h, hmessage, hm, hframe, hwhat⟩
  · exact absurd (show "" = _ from hmessage) (by decide)

end Session

end SolidExport
