/-
  What the standard map rules out.

  Looking for the target of a node has branches for what a table of targets may get wrong: a target
  that cannot be converted, a star without a dimension, a target without an encoder.  With the standard
  map none of them is taken.  A tag that cannot be converted has no dimension to begin with
  (`dimension_of_notAvailable`), and every other tag leads to an encoder (`plan_of_dimension`).

  A node that is no generator and has a dimension has it from a child, so there is a child to count
  (`countChildren_pos`).  With one child a difference or intersection becomes a union; only a sum
  does not, and is refused (`minkowski_of_misses`).
-/
import SolidExport.Proofs.Emission.Failure
import SolidExport.Proofs.TagMap

namespace SolidExport

open Outcome (FailsWith)

/-! ## The table -/

namespace TagMap

/-- The tags that cannot be converted are those that are refused as soon as they are met. -/
theorem isUnsupported_of_notAvailable {tag : String}
    (h : standard.find? tag = some Template.notAvailable) : Dimension.isUnsupported tag = true := by
  have htable : ∀ entry ∈ standard.entries, entry.2 = Template.notAvailable →
      Dimension.isUnsupported entry.1 = true := by
    decide
  exact htable _ (mem_of_find? h) rfl

variable {d : Dimension}

/-- Every target of the standard map has an encoder, for any number of operands.  So no node is
    refused for its target. -/
theorem encoder?_of_standard (trig : Trig) :
    ∀ t ∈ standardTargets d, (Shape.encoder? t.2).isSome = true := by
  have htag : ∀ t ∈ standardTargets d, t.2 ∈ Schema.shapeTags := by
    cases d <;> decide
  exact fun t ht => Schema.isSome_encoder? (htag t ht)

/-- For one operand only a sum stays a combination of two; a difference and an intersection become
    unions. -/
theorem minkowski_of_standard : ∀ t ∈ standardTargets d,
    loneOperandTarget t.2 ∈ Shape.binaryTags → t.1 = "minkowski" := by
  cases d <;> decide

/-- In the standard map a combination of two is never the target of a generator. -/
theorem binary_of_standard : ∀ t ∈ standardTargets d, t.2 ∈ Shape.binaryTags →
    Dimension.ofGenerator? t.1 = none := by
  intro t ht hbinary
  have hall : ∀ tag ∈ Shape.binaryTags,
      tag ∈ combinationTags .flat ∨ tag ∈ combinationTags .solid := by
    decide
  rcases hall t.2 hbinary with h | h
  · exact (combination_of_standard t ht _ h).2
  · exact (combination_of_standard t ht _ h).2

end TagMap

/-! ## Plans -/

namespace Node

variable {trig : Trig} {n : Node} {d : Dimension} {template : String}

/-- A node whose tag cannot be converted is refused as soon as its dimension is asked for, before
    its target is looked at. -/
theorem dimension_of_notAvailable (h : TagMap.standard.find? n.tag = some Template.notAvailable) :
    n.dimension = .error (n.fault (Dimension.unsupportedCause n.tag)) := by
  have hown : n.ownDimension = .error (n.fault (Dimension.unsupportedCause n.tag)) :=
    if_pos (TagMap.isUnsupported_of_notAvailable h)
  rw [dimension_eq, hown]
  rfl

theorem ne_notAvailable (hfind : TagMap.standard.find? n.tag = some template) {r : Option Dimension}
    (hd : n.dimension = .ok r) : template ≠ Template.notAvailable := by
  rintro rfl
  rw [dimension_of_notAvailable hfind] at hd
  exact nomatch hd

/-- What a node with a dimension is written as is a target that the standard map has for its tag. -/
theorem mem_standardTargets_of_dimension (hfind : TagMap.standard.find? n.tag = some template)
    (hd : n.dimension = .ok (some d)) {resolved target : String}
    (hresolved : Template.resolve? template (some d) = some resolved)
    (htarget : target = resolved ∨ target = loneOperandTarget resolved) :
    (n.tag, target) ∈ TagMap.standardTargets d := by
  refine TagMap.mem_standardTargets hfind (ne_notAvailable hfind hd) (fun d' hgenerator => ?_)
    hresolved htarget
  rw [dimension_of_generator hgenerator] at hd
  injection hd with hd
  exact Option.some.inj hd

theorem targetOf_eq_or (n : Node) (resolved : String) :
    n.targetOf resolved = resolved ∨ n.targetOf resolved = loneOperandTarget resolved := by
  unfold targetOf
  split
  · exact .inr rfl
  · exact .inl rfl

/-- **A node with a dimension has an encoder** under the standard map. -/
theorem plan_of_dimension (trig : Trig) (skipEmpty : Bool)
    (hfind : TagMap.standard.find? n.tag = some template) (hd : n.dimension = .ok (some d)) :
    ∃ resolved encoder, Template.resolve? template (some d) = some resolved ∧
      n.plan ⟨.standard, skipEmpty⟩ = .ok (.encode (n.targetOf resolved) encoder) := by
  obtain ⟨resolved, hresolved⟩ := exists_resolve template d
  have htarget := mem_standardTargets_of_dimension hfind hd hresolved (n.targetOf_eq_or resolved)
  obtain ⟨encoder, hencoder⟩ :=
    Option.isSome_iff_exists.mp (TagMap.encoder?_of_standard trig _ htarget)
  refine ⟨resolved, encoder, hresolved, ?_⟩
  unfold targetOf at hencoder ⊢
  unfold plan
  simp only [hfind, hd, bind, Except.bind, if_neg (ne_notAvailable hfind hd), hresolved, hencoder]
  rfl

/-- **Where a node is refused, the search for its target found the fault**; nothing is missing in the
    table. -/
theorem finds_plan (skipEmpty : Bool) (n : Node) :
    FailsWith n.Finds (n.plan ⟨.standard, skipEmpty⟩) := by
  cases hd : n.dimension with
  | error f =>
    unfold plan
    split
    · exact .error (n.finds_fault rfl nofun)
    · refine .bind n.finds_dimension fun r hr => ?_
      rw [hd] at hr
      exact nomatch hr
  | ok r =>
    cases r with
    | none =>
      unfold plan
      split
      · exact .error (n.finds_fault rfl nofun)
      · refine .bind n.finds_dimension fun r hr => ?_
        refine .guard (fun _ => n.finds_fault rfl nofun) fun _ => ?_
        obtain rfl : none = r := by
          rw [hd] at hr
          injection hr
        show FailsWith n.Finds (n.planEmpty _ _)
        unfold planEmpty
        split
        · exact .ok _
        · exact .error (n.finds_fault rfl nofun)
    | some d =>
      cases hfind : TagMap.standard.find? n.tag with
      | none =>
        unfold plan
        simp only [hfind]
        exact .error (n.finds_fault rfl nofun)
      | some template =>
        obtain ⟨resolved, encoder, -, hplan⟩ := plan_of_dimension trig skipEmpty hfind hd
        rw [hplan]
        exact .ok _

/-! ## Operands -/

/-- A node that takes its dimension from below has a child that is no dummy. -/
theorem countChildren_pos (hgenerator : Dimension.ofGenerator? n.tag = none)
    (hd : n.dimension = .ok (some d)) : 0 < n.countChildren := by
  obtain ⟨c, hc, hdummy, -⟩ := firstDimension_some (firstDimension_of_dimension hd hgenerator)
  unfold countChildren
  refine List.length_pos_of_mem (a := c) ?_
  rw [List.mem_filter]
  exact ⟨hc, by rw [hdummy]; rfl⟩

/-- **Only a sum with one child misses an operand** under the standard map: other combinations are
    unions then, and none has no child at all. -/
theorem minkowski_of_misses {skipEmpty : Bool} {target : String} {encoder : Node → Draft Encoding}
    {f : Fault} (hplan : n.plan ⟨.standard, skipEmpty⟩ = .ok (.encode target encoder))
    (h : Shape.MissesOperand n target f) : n.tag = "minkowski" ∧ n.countChildren = 1 := by
  obtain ⟨template, hfind, -, hdrop | ⟨d, resolved, encoder', hd, hresolved, -, hp⟩⟩ := plan_ok hplan
  · exact nomatch hdrop.2.2
  · injection hp with htarget
    subst htarget
    have hmem := mem_standardTargets_of_dimension hfind hd hresolved (n.targetOf_eq_or resolved)
    have hgenerator := TagMap.binary_of_standard _ hmem h.target_mem
    have hpos := countChildren_pos hgenerator hd
    have hlt := h.count_lt
    have hone : n.countChildren = 1 := by omega
    -- with one child the fallback has been tried, and gave a combination of two again
    have hlone : loneOperandTarget resolved ∈ Shape.binaryTags := by
      have htarget : n.targetOf resolved = loneOperandTarget resolved := if_pos hone
      rw [← htarget]
      exact h.target_mem
    have hresolvedMem := mem_standardTargets_of_dimension hfind hd hresolved (.inl rfl)
    exact ⟨TagMap.minkowski_of_standard _ hresolvedMem hlone, hone⟩

/-- **What a node fails with by itself**: what was found while it was read, or that a sum misses an
    operand. -/
theorem Fails.finds_or_misses {skipEmpty : Bool} {f : Fault}
    (h : n.Fails ⟨.standard, skipEmpty⟩ (.fault f)) :
    n.Finds f ∨ n.tag = "minkowski" ∧ n.countChildren = 1 ∧
      ∃ target, f = n.fault (.tooFewOperands n.tag target n.countChildren) := by
  cases h with
  | plan h => exact .inl (n.finds_plan skipEmpty f h)
  | transform hplan h => exact .inl (n.reports_explicitTransform _ h).locate
  | encoder hplan h =>
    obtain ⟨g, hg, hfinds⟩ | ⟨count, hcount, -⟩ := finds_encoder hplan h
    · cases hg
      rcases hfinds with hfinds | hmisses
      · exact .inl hfinds
      · obtain ⟨htag, hcount⟩ := minkowski_of_misses hplan hmisses
        exact .inr ⟨htag, hcount, _, hmisses.fault_eq⟩
    · exact nomatch hcount

/-- **A sum with one child misses an operand**, whatever its parameters are. -/
theorem emitNode_lone_minkowski (skipEmpty : Bool) (htag : n.tag = "minkowski")
    (hcount : n.countChildren = 1) (hd : n.dimension = .ok (some d)) :
    ∃ target, (emitNode ⟨.standard, skipEmpty⟩ n).failure =
      some (.fault (n.fault (.tooFewOperands "minkowski" target 1))) := by
  have hfind : TagMap.standard.find? n.tag = some "minkowski*" := by
    rw [htag]
    decide
  obtain ⟨resolved, encoder, hresolved, hplan⟩ := plan_of_dimension trig skipEmpty hfind hd
  have htarget : n.targetOf resolved = loneOperandTarget resolved := if_pos hcount
  have hencoder : encoder = Shape.plain (Shape.binary (n.targetOf resolved)) := by
    have hsome := (plan_encode hplan).2
    rw [htarget] at hsome ⊢
    cases d with
    | flat =>
      obtain rfl : "minkowski2d" = resolved := Option.some.inj hresolved
      exact (Option.some.inj hsome).symm
    | solid =>
      obtain rfl : "minkowski3d" = resolved := Option.some.inj hresolved
      exact (Option.some.inj hsome).symm
  have hdummy : n.isDummy = false := by
    obtain ⟨head, transform, children⟩ := n
    rw [isDummy, show head.tag = "minkowski" from htag]
    rfl
  have hexplicit : n.explicitTransform = .ok none := by
    unfold explicitTransform
    rw [htag]
    dsimp only
    split <;> rfl
  have hrun : encoder n (.new (n.targetOf resolved)) =
      .error (.fault (n.fault (.tooFewOperands "minkowski" (n.targetOf resolved) 1)))
        (.new (n.targetOf resolved)) := by
    rw [hencoder]
    unfold Shape.plain Shape.binary
    rw [hcount, htag]
    rfl
  refine ⟨n.targetOf resolved, ?_⟩
  obtain ⟨head, transform, children⟩ := n
  rw [emitNode]
  simp only [hdummy, hplan, hexplicit, hrun]
  rfl

end Node

/-! ## Conversions -/

/-- **With the standard map no branch is taken that guards the tables.**  Wherever a conversion starts,
    a node whose tag cannot be converted has no dimension; one that has a dimension has a target and an
    encoder for it.  So no failure is a missing encoder, and one for too few operands is that of a sum
    with exactly one child that is no dummy, which is always refused. -/
theorem convert_standard_guards [Trig] (s : Session) (skipEmpty : Bool) (path : List Nat)
    (root : Node) :
    (∀ p n, root.at? p = some n → TagMap.standard.find? n.tag = some Template.notAvailable →
      n.dimension = .error (n.fault (Dimension.unsupportedCause n.tag))) ∧
    (∀ p n template d, root.at? p = some n → TagMap.standard.find? n.tag = some template →
      n.dimension = .ok (some d) →
      ∃ resolved encoder, Template.resolve? template (some d) = some resolved ∧
        n.plan ⟨.standard, skipEmpty⟩ = .ok (.encode (n.targetOf resolved) encoder)) ∧
    (∀ f, (s.convert ⟨.standard, skipEmpty⟩ path root).2 = .error (.fault f) →
      (∀ tag target, f.cause ≠ .noEncoder tag target) ∧
      ∀ tag target count, f.cause = .tooFewOperands tag target count →
        ∃ p n, root.at? p = some n ∧ f.location = some n.location ∧ n.tag = "minkowski" ∧
          n.countChildren = 1 ∧ tag = "minkowski" ∧ count = 1) ∧
    ∀ p n d, root.at? p = some n → n.tag = "minkowski" → n.countChildren = 1 →
      n.dimension = .ok (some d) →
      ∃ target, (emitNode ⟨.standard, skipEmpty⟩ n).failure =
        some (.fault (n.fault (.tooFewOperands "minkowski" target 1))) := by
  refine ⟨fun _ n _ h => n.dimension_of_notAvailable h,
    fun _ n _ _ _ hfind hd => n.plan_of_dimension _ skipEmpty hfind hd, fun f h => ?_,
    fun _ n _ _ htag hcount hd => n.emitNode_lone_minkowski skipEmpty htag hcount hd⟩
  have hcases : f.cause.ofReading = true ∨ ∃ p n, root.at? p = some n ∧ n.tag = "minkowski" ∧
      n.countChildren = 1 ∧ ∃ target, f = n.fault (.tooFewOperands n.tag target n.countChildren) := by
    obtain ⟨g, hg, hfinds⟩ | ⟨p, n, hn, hfails⟩ := emitRoot_fails (Session.convert_error.mp h)
    · cases hg
      exact .inl hfinds.reading
    · rcases hfails.finds_or_misses with hfinds | hmisses
      · exact .inl hfinds.reading
      · exact .inr ⟨p, n, hn, hmisses⟩
  rcases hcases with hreading | ⟨p, n, hn, htag, hcount, target', rfl⟩
  · constructor
    · intro tag target hcause
      rw [hcause] at hreading
      exact nomatch hreading
    · intro tag target count hcause
      rw [hcause] at hreading
      exact nomatch hreading
  · constructor
    · intro tag target hcause
      exact nomatch hcause
    · intro tag target count hcause
      injection hcause with htag' _ hcount'
      exact ⟨p, n, hn, rfl, htag, hcount, htag'.symm.trans htag, hcount'.symm.trans hcount⟩

/-- A sum of one cube and a dummy, and a difference of one cube that has an import below. -/
def lonelySum : Node :=
  .root [.sample "minkowski" []
      [.sample "cube" [("size", .number 1 1.0 "1")] [], .sample "group" [] []],
    .sample "difference" []
      [.sample "cube" [("size", .number 1 1.0 "1")] [.sample "import" [] []]]]

/-- The sum of one cube is refused, the difference of one cube is written as a union, and the import
    below that cube is never asked for. -/
theorem convert_standard_guards_lonelySum :
    ∃ (f : Fault) (sum difference file : Node),
      ((Session.start lonelySum).convert (.sample false) [] lonelySum).2 = .error (.fault f) ∧
      lonelySum.at? [0] = some sum ∧ lonelySum.at? [1] = some difference ∧
      lonelySum.at? [1, 0, 0] = some file ∧
      f.cause = .tooFewOperands "minkowski" "minkowski3d" 1 ∧
      (∃ p n, lonelySum.at? p = some n ∧ f.location = some n.location ∧ n.tag = "minkowski" ∧
        n.countChildren = 1) ∧
      (∃ target, (emitNode (.sample false) sum).failure =
        some (.fault (sum.fault (.tooFewOperands "minkowski" target 1)))) ∧
      (∃ encoder, difference.plan (.sample false) = .ok (.encode "union3d" encoder)) ∧
      file.dimension = .error (file.fault (.unsupportedFile "import")) := by
  obtain ⟨hfile, hplan, hfails, hsum⟩ :=
    @convert_standard_guards .rounded (Session.start lonelySum) false [] lonelySum
  have hconvert : ((Session.start lonelySum).convert (.sample false) [] lonelySum).2 =
      .error (.fault ((Node.sample "minkowski" [] []).fault
        (.tooFewOperands "minkowski" "minkowski3d" 1))) := rfl
  obtain ⟨p, n, hn, hlocation, htag, hcount, -⟩ := (hfails _ hconvert).2 _ _ _ rfl
  obtain ⟨resolved, encoder, hresolved, hdifference⟩ :=
    hplan [1] _ "difference*" .solid rfl rfl rfl
  obtain rfl : "difference3d" = resolved := Option.some.inj hresolved
  exact ⟨_, _, _, _, hconvert, rfl, rfl, rfl, rfl, ⟨p, n, hn, hlocation, htag, hcount⟩,
    hsum [0] _ .solid rfl rfl rfl rfl, ⟨encoder, hdifference⟩, hfile [1, 0, 0] _ rfl rfl⟩

end SolidExport
