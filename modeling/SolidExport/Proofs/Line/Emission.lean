/-
  What a tree is written as does not depend on lines.

  What is done with a node is decided by its tag, its dimension and its operands, and its frame is
  what the encoder writes: none of them changes with the line (`Node.frame?_raise`).  So a tree that
  is written on the first line is written on any other, as the same elements (`emitNodes_raise`).
-/
import SolidExport.Proofs.Emission.Frame
import SolidExport.Proofs.Line.Shape

namespace SolidExport

open Outcome (Keeps)

variable {o : EmitOptions} {k : Nat}

/-! ## Plans and frames -/

namespace Node

variable {n : Node}

theorem keeps_planEmpty (template : String) :
    Keeps id (n.planEmpty o template) ((n.raise k).planEmpty o template) := by
  unfold planEmpty
  split
  · exact .refl _
  · exact .error

theorem keeps_plan (o : EmitOptions) (n : Node) : Keeps id (n.plan o) ((n.raise k).plan o) := by
  unfold plan
  rw [tag_raise, countChildren_raise]
  cases o.tagMap.find? n.tag with
  | none => exact .error
  | some template =>
    refine .bind n.keeps_dimension fun dimension => .guard ?_
    dsimp only [id]
    split
    · split
      · exact .refl _
      · exact .error
    · exact keeps_planEmpty template

theorem keeps_explicitTransform (n : Node) :
    Keeps id n.explicitTransform (n.raise k).explicitTransform := by
  unfold explicitTransform
  dsimp only
  rw [tag_raise, param?_raise]
  cases n.param? (Params.positionalName 0) with
  | some v =>
    dsimp only [Option.map_some]
    split
    · exact (Matrix.keeps_ofLiteral v).map some
    · exact .refl _
  | none =>
    dsimp only [Option.map_none]
    split
    · exact .error
    · exact .refl _

theorem frame?_raise {f : Frame} (h : n.frame? o = some f) : (n.raise k).frame? o = some f := by
  obtain ⟨target, encoder, hplan, hexplicit, hencode⟩ := frame?_eq_some h
  have hencodes := Shape.encodes_of_encoder? (plan_encode hplan).2
  have hplan' : (n.raise k).plan o = .ok (.encode target encoder) := n.keeps_plan o _ hplan
  have hexplicit' : (n.raise k).explicitTransform = .ok f.explicit :=
    n.keeps_explicitTransform _ hexplicit
  have hencode' : encoder (n.raise k) (.new target) = .ok f.encoding f.element :=
    Shape.keeps_encoder n hencodes _ _ _ hencode
  unfold frame?
  simp only [hplan', hexplicit', hencode']

end Node

/-! ## Emissions -/

/-- Some nodes are written `k` lines further down as the same elements, if each of them is. -/
theorem emitNodes_raise_of_each {ns : List Node}
    (h : ∀ n ∈ ns, (emitNode o n).failure = none →
      (emitNode o (n.raise k)).failure = none ∧
        (emitNode o (n.raise k)).elements = (emitNode o n).elements)
    (hns : (emitNodes o ns).failure = none) :
    (emitNodes o (ns.map (Node.raise k))).failure = none ∧
      (emitNodes o (ns.map (Node.raise k))).elements = (emitNodes o ns).elements := by
  obtain ⟨heach, helements, -⟩ := emitNodes_ok hns
  have hraised : (emitNodes o (ns.map (Node.raise k))).failure = none := by
    refine emitNodes_of_each fun m hm => ?_
    obtain ⟨n, hn, rfl⟩ := List.mem_map.mp hm
    exact (h n hn (heach n hn)).1
  refine ⟨hraised, ?_⟩
  rw [(emitNodes_ok hraised).2.1, helements, List.flatMap_map]
  exact List.flatMap_congr fun n hn => (h n hn (heach n hn)).2

/-- **A node on another line** is written as the same elements.  Only faults and warnings name
    lines, and where nothing fails there are no faults. -/
theorem emitNode_raise {n : Node} (h : (emitNode o n).failure = none) :
    (emitNode o (n.raise k)).failure = none ∧
      (emitNode o (n.raise k)).elements = (emitNode o n).elements := by
  induction n using Node.induction with
  | step n ih =>
    cases hdummy : n.isDummy with
    | true =>
      have hdummy' : (n.raise k).isDummy = true := n.isDummy_raise.trans hdummy
      rw [emitNode_dummy o hdummy, emitNode_dummy o hdummy']
      exact ⟨rfl, rfl⟩
    | false =>
      have hdummy' : (n.raise k).isDummy = false := n.isDummy_raise.trans hdummy
      cases hframe : n.frame? o with
      | some f =>
        rw [emitNode_frame hdummy hframe] at h ⊢
        -- the frame is the same, and it is filled with the same
        obtain ⟨hfailure, helements⟩ := emitNodes_raise_of_each ih h
        rw [emitNode_frame hdummy' (Node.frame?_raise hframe), Node.children_raise]
        refine ⟨hfailure, ?_⟩
        unfold finishNode
        rw [helements]
      | none =>
        by_cases hplan : n.plan o = .ok .drop
        · rw [emitNode_drop hdummy hplan, emitNode_drop hdummy' (n.keeps_plan o _ hplan)]
          exact ⟨rfl, rfl⟩
        · exact absurd h (emitNode_failure_of_no_frame hdummy hplan hframe)

theorem emitNodes_raise {ns : List Node} (h : (emitNodes o ns).failure = none) :
    (emitNodes o (ns.map (Node.raise k))).failure = none ∧
      (emitNodes o (ns.map (Node.raise k))).elements = (emitNodes o ns).elements :=
  emitNodes_raise_of_each (fun _ _ => emitNode_raise) h

end SolidExport
