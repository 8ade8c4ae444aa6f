/-
  How the dimension of a node is found.

  The search for a dimension asks the children one after the other and stops at the first that has
  an answer (`firstDimension_cons_ok`).  So if it finds one, some child has it (`firstDimension_some`),
  and if it finds none, every child was asked that is no dummy (`firstDimension_none`).

  A node is looked into only if its tag passes geometry through.  A node without a dimension may
  therefore still hold a generator, but only behind a node that is not looked into
  (`hidden_of_dimension_none`).  If the operands of a node agree, they all have its own dimension
  (`dimension_of_uniform`).

  Both searches, for a dimension and for a second one, go on behind some nodes from what they have
  found among them (`firstDimension_append`, `secondDimension_append`).
-/
import SolidExport.Proofs.Outcome
import SolidExport.Proofs.Tree
import SolidExport.Shape.Boolean

namespace SolidExport

open Outcome (bind_ok)

/-! ## Tags -/

/-- A tag that makes geometry is supported, so a generator answers for itself. -/
theorem Dimension.isUnsupported_of_generator {tag : String} {d : Dimension}
    (h : ofGenerator? tag = some d) : isUnsupported tag = false := by
  have hflat : ∀ t ∈ ["circle", "square", "polygon", "projection"], isUnsupported t = false := by
    decide
  have hsolid : ∀ t ∈ ["sphere", "cylinder", "cube", "polyhedron", "linear_extrude",
      "rotate_extrude"], isUnsupported t = false := by
    decide
  unfold ofGenerator? at h
  split at h
  · rename_i htag
    exact hflat tag (List.contains_iff_mem.mp htag)
  · split at h
    · rename_i htag
      exact hsolid tag (List.contains_iff_mem.mp htag)
    · exact nomatch h

namespace Node

variable {n c m : Node} {ns : List Node} {d : Dimension} {r : Option Dimension}

/-- A generator is no dummy, since its tag is not that of a group. -/
theorem isDummy_of_generator (h : (Dimension.ofGenerator? n.tag).isSome = true) :
    n.isDummy = false := by
  cases hdummy : n.isDummy with
  | false => rfl
  | true =>
    rw [isDummy_eq, Bool.and_eq_true] at hdummy
    rw [eq_of_beq hdummy.1] at h
    exact absurd h (by decide)

/-! ## One node -/

theorem ownDimension_ok (h : n.ownDimension = .ok r) :
    r = Dimension.ofGenerator? n.tag ∧ Dimension.isUnsupported n.tag = false := by
  unfold ownDimension at h
  split at h
  · exact nomatch h
  · rename_i hsupported
    injection h with h
    exact ⟨h.symm, Bool.eq_false_iff.mpr hsupported⟩

theorem dimension_eq (n : Node) :
    n.dimension = n.ownDimension >>= fun
      | some d => .ok (some d)
      | none => firstDimension n.children := by
  obtain ⟨head, transform, children⟩ := n
  rw [dimension]
  rfl

/-- A generator has the dimension of its tag, whatever is below it. -/
theorem dimension_of_generator (h : Dimension.ofGenerator? n.tag = some d) :
    n.dimension = .ok (some d) := by
  have hsupported := Dimension.isUnsupported_of_generator h
  rw [dimension_eq, ownDimension, if_neg (by rw [hsupported]; exact Bool.false_ne_true), h]
  rfl

/-- A node that is no generator has the dimension that is found among its children, if any is. -/
theorem firstDimension_of_dimension (h : n.dimension = .ok r)
    (hgenerator : Dimension.ofGenerator? n.tag = none) : firstDimension n.children = .ok r := by
  rw [dimension_eq] at h
  obtain ⟨own, hown, hrest⟩ := bind_ok.mp h
  obtain ⟨rfl, -⟩ := ownDimension_ok hown
  rw [hgenerator] at hrest
  exact hrest

/-- A node without a dimension is no generator, and none was found among its children. -/
theorem dimension_none (h : n.dimension = .ok none) :
    Dimension.ofGenerator? n.tag = none ∧ firstDimension n.children = .ok none := by
  cases hgenerator : Dimension.ofGenerator? n.tag with
  | some d =>
    rw [dimension_of_generator hgenerator] at h
    exact nomatch h
  | none => exact ⟨rfl, firstDimension_of_dimension h hgenerator⟩

/-! ## The children of a node -/

theorem firstDimension_of_dummy (h : c.isDummy = true) :
    firstDimension (c :: ns) = firstDimension ns := by
  rw [firstDimension, if_pos h]

/-- **All that one step of the search can do.**  A child that is no dummy has the dimension that is
    the answer, or it makes no geometry by itself, has nothing to show if it is looked into, and the
    search goes on. -/
theorem firstDimension_cons_ok (hc : c.isDummy = false) (h : firstDimension (c :: ns) = .ok r) :
    (∃ d, c.dimension = .ok (some d) ∧ r = some d) ∨
    (Dimension.ofGenerator? c.tag = none ∧ Dimension.isUnsupported c.tag = false ∧
      (Dimension.passesThrough c.tag = true → c.dimension = .ok none) ∧
      firstDimension ns = .ok r) := by
  rw [firstDimension, if_neg (by rw [hc]; exact Bool.false_ne_true)] at h
  obtain ⟨own, hown, hrest⟩ := bind_ok.mp h
  obtain ⟨rfl, hsupported⟩ := ownDimension_ok hown
  cases hgenerator : Dimension.ofGenerator? c.tag with
  | some d =>
    rw [hgenerator] at hrest
    injection hrest with hrest
    exact Or.inl ⟨d, dimension_of_generator hgenerator, hrest.symm⟩
  | none =>
    rw [hgenerator] at hrest
    dsimp only at hrest
    split at hrest
    · obtain ⟨inner, hinner, hmore⟩ := bind_ok.mp hrest
      cases inner with
      | some d =>
        injection hmore with hmore
        exact Or.inl ⟨d, hinner, hmore.symm⟩
      | none => exact Or.inr ⟨rfl, hsupported, fun _ => hinner, hmore⟩
    · rename_i hpass
      exact Or.inr ⟨rfl, hsupported, fun hpass' => absurd hpass' hpass, hrest⟩

/-- A dimension that is found among some nodes is that of one of them, which is no dummy. -/
theorem firstDimension_some (h : firstDimension ns = .ok (some d)) :
    ∃ c ∈ ns, c.isDummy = false ∧ c.dimension = .ok (some d) := by
  induction ns with
  | nil => exact nomatch h
  | cons n ns ih =>
    have htail : firstDimension ns = .ok (some d) →
        ∃ c ∈ n :: ns, c.isDummy = false ∧ c.dimension = .ok (some d) := by
      intro hrest
      obtain ⟨c, hc, hfound⟩ := ih hrest
      exact ⟨c, List.mem_cons_of_mem n hc, hfound⟩
    cases hn : n.isDummy with
    | true => exact htail (firstDimension_of_dummy hn ▸ h)
    | false =>
      rcases firstDimension_cons_ok hn h with ⟨d', hd', heq⟩ | ⟨-, -, -, hrest⟩
      · injection heq with heq
        subst heq
        exact ⟨n, List.mem_cons_self, hn, hd'⟩
      · exact htail hrest

/-- The search goes on behind the nodes `ns` if it found nothing among them, and ends there if it
    did. -/
theorem firstDimension_append (ns ms : List Node) :
    firstDimension (ns ++ ms) = firstDimension ns >>= fun
      | some d => .ok (some d)
      | none => firstDimension ms := by
  induction ns with
  | nil => rw [firstDimension]; rfl
  | cons n ns ih =>
    rw [List.cons_append, firstDimension, firstDimension, ih]
    split
    · rfl
    · cases n.ownDimension with
      | error f => rfl
      | ok own =>
        cases own with
        | some d => rfl
        | none =>
          show (if Dimension.passesThrough n.tag = true then _ else _)
            = (if Dimension.passesThrough n.tag = true then _ else _) >>= _
          split
          · cases n.dimension with
            | error f => rfl
            | ok inner =>
              cases inner with
              | some d => rfl
              | none => rfl
          · rfl

/-- If no dimension is found, no child makes geometry, and none that is looked into has any. -/
theorem firstDimension_none (h : firstDimension ns = .ok none) :
    ∀ c ∈ ns, c.isDummy = false → Dimension.ofGenerator? c.tag = none ∧
      Dimension.isUnsupported c.tag = false ∧
      (Dimension.passesThrough c.tag = true → c.dimension = .ok none) := by
  induction ns with
  | nil => exact fun c hc => absurd hc List.not_mem_nil
  | cons n ns ih =>
    intro c hc hdummy
    cases hn : n.isDummy with
    | true =>
      rcases List.mem_cons.mp hc with rfl | hc
      · rw [hdummy] at hn
        exact nomatch hn
      · exact ih (firstDimension_of_dummy hn ▸ h) c hc hdummy
    | false =>
      rcases firstDimension_cons_ok hn h with ⟨d', -, heq⟩ | ⟨hgen, hsupported, hpass, hrest⟩
      · exact nomatch heq
      · rcases List.mem_cons.mp hc with rfl | hc
        · exact ⟨hgen, hsupported, hpass⟩
        · exact ih hrest c hc hdummy

/-! ## Generators that are not found -/

/-- **A generator in a node without a dimension is hidden.**  On the way to it stands a node, neither
    of the two ends, that makes no geometry and is not looked into. -/
theorem hidden_of_dimension_none {q : List Nat} (h : n.dimension = .ok none)
    (hm : n.at? q = some m) (hgenerator : (Dimension.ofGenerator? m.tag).isSome = true) :
    ∃ r k, r ≠ [] ∧ r <+: q ∧ r ≠ q ∧ n.at? r = some k ∧
      Dimension.passesThrough k.tag = false ∧ Dimension.ofGenerator? k.tag = none ∧
      Dimension.isUnsupported k.tag = false := by
  induction q generalizing n with
  | nil =>
    injection hm with hm
    subst hm
    rw [(dimension_none h).1] at hgenerator
    exact nomatch hgenerator
  | cons i q ih =>
    obtain ⟨c, hi, hm⟩ := at?_cons_eq_some.mp hm
    have hdummy : c.isDummy = false := by
      cases hc : c.isDummy with
      | false => rfl
      | true => rw [← isDummy_of_generator hgenerator, isDummy_of_at? hc hm]
    obtain ⟨hgen, hsupported, hlooked⟩ :=
      firstDimension_none (dimension_none h).2 c (List.mem_of_getElem? hi) hdummy
    cases hpass : Dimension.passesThrough c.tag with
    | true =>
      -- the child is looked into, so the hidden generator is hidden further down
      obtain ⟨r, k, hne, hprefix, hproper, hk, hrest⟩ := ih (hlooked hpass) hm
      refine ⟨i :: r, k, List.cons_ne_nil i r, List.cons_prefix_cons.mpr ⟨rfl, hprefix⟩, ?_,
        (at?_cons hi r).trans hk, hrest⟩
      intro heq
      injection heq with _ heq
      exact hproper heq
    | false =>
      refine ⟨[i], c, List.cons_ne_nil i [], ⟨q, rfl⟩, ?_, at?_cons hi [], hpass, hgen,
        hsupported⟩
      rintro heq
      injection heq with _ heq
      subst heq
      injection hm with hm
      subst hm
      rw [hgen] at hgenerator
      exact nomatch hgenerator

/-! ## Operands that agree -/

section

variable {seen : Option Dimension} {s : Dimension}

theorem secondDimension_eq (hdummy : n.isDummy = false) :
    Shape.secondDimension seen (n :: ns) = n.dimension >>= fun own => match seen, own with
      | seen, none => Shape.secondDimension seen ns
      | none, some d => Shape.secondDimension (some d) ns
      | some s, some d =>
        if s = d then Shape.secondDimension (some s) ns else .ok (some (s, d)) := by
  rw [Shape.secondDimension, if_neg (by rw [hdummy]; exact Bool.false_ne_true)]
  rfl

/-- An operand that is a dummy or has no dimension does not count. -/
theorem secondDimension_skip (h : n.isDummy = true ∨ n.dimension = .ok none) :
    Shape.secondDimension seen (n :: ns) = Shape.secondDimension seen ns := by
  cases hdummy : n.isDummy with
  | true => rw [Shape.secondDimension, if_pos hdummy]
  | false =>
    rw [hdummy] at h
    rw [secondDimension_eq hdummy, h.resolve_left Bool.false_ne_true]
    rfl

/-- The first operand with a dimension sets the one to compare with. -/
theorem secondDimension_see (hdummy : n.isDummy = false) (h : n.dimension = .ok (some d)) :
    Shape.secondDimension none (n :: ns) = Shape.secondDimension (some d) ns := by
  rw [secondDimension_eq hdummy, h]
  rfl

/-- Every further operand with a dimension is compared with the one that was seen. -/
theorem secondDimension_compare (hdummy : n.isDummy = false) (h : n.dimension = .ok (some d)) :
    Shape.secondDimension (some s) (n :: ns)
      = if s = d then Shape.secondDimension (some s) ns else .ok (some (s, d)) := by
  rw [secondDimension_eq hdummy, h]
  rfl

/-- Where the search finds no second dimension, every operand could be asked: it has none, or it has
    one. -/
theorem dimension_of_secondDimension (h : Shape.secondDimension seen (n :: ns) = .ok none) :
    (n.isDummy = true ∨ n.dimension = .ok none) ∨
      n.isDummy = false ∧ ∃ d, n.dimension = .ok (some d) := by
  cases hdummy : n.isDummy with
  | true => exact Or.inl (Or.inl rfl)
  | false =>
    rw [secondDimension_eq hdummy] at h
    obtain ⟨own, hown, -⟩ := bind_ok.mp h
    cases own with
    | none => exact Or.inl (Or.inr hown)
    | some d => exact Or.inr ⟨rfl, d, hown⟩

/-- One step of the search for a second dimension: it goes on with what was seen, and the operand has
    no other dimension than that. -/
theorem secondDimension_cons_none (h : Shape.secondDimension seen (n :: ns) = .ok none) :
    ∃ next, (∀ ms, Shape.secondDimension seen (n :: ms) = Shape.secondDimension next ms) ∧
      (∀ s, seen = some s → next = some s) ∧
      (n.isDummy = false → ∀ d, n.dimension = .ok (some d) → next = some d) := by
  rcases dimension_of_secondDimension h with hskip | ⟨hdummy, d, hd⟩
  · refine ⟨seen, fun ms => secondDimension_skip hskip, fun _ hs => hs, fun hdummy d hd => ?_⟩
    rw [hdummy, hd] at hskip
    exact nomatch hskip
  · have hown : n.isDummy = false → ∀ d', n.dimension = .ok (some d') → some d = some d' := by
      intro _ d' hd'
      rw [hd] at hd'
      injection hd'
    cases seen with
    | none => exact ⟨some d, fun ms => secondDimension_see hdummy hd, nofun, hown⟩
    | some s =>
      rw [secondDimension_compare hdummy hd] at h
      by_cases hsame : s = d
      · subst hsame
        refine ⟨some s, fun ms => ?_, fun _ hs => hs, hown⟩
        rw [secondDimension_compare hdummy hd, if_pos rfl]
      · rw [if_neg hsame] at h
        exact nomatch h

/-- **If a second dimension is not found**, the search goes on behind the operands, and has seen the
    dimension that they share. -/
theorem secondDimension_append (h : Shape.secondDimension seen ns = .ok none) :
    ∃ next, (∀ ms, Shape.secondDimension seen (ns ++ ms) = Shape.secondDimension next ms) ∧
      (∀ s, seen = some s → next = some s) ∧
      ∀ c ∈ ns, c.isDummy = false → ∀ d, c.dimension = .ok (some d) → next = some d := by
  induction ns generalizing seen with
  | nil => exact ⟨seen, fun ms => rfl, fun _ hs => hs, fun c hc => absurd hc List.not_mem_nil⟩
  | cons n ns ih =>
    obtain ⟨next, hstep, hseen, hn⟩ := secondDimension_cons_none h
    obtain ⟨last, hrun, hnext, hall⟩ := ih ((hstep ns).symm.trans h)
    refine ⟨last, fun ms => (hstep (ns ++ ms)).trans (hrun ms), fun s hs => hnext s (hseen s hs), ?_⟩
    intro c hc hdummy d hd
    rcases List.mem_cons.mp hc with rfl | hc
    · exact hnext d (hn hdummy d hd)
    · exact hall c hc hdummy d hd

/-- **Behind a dimension that was seen**, operands that agree agree with it, or the first of them that
    has a dimension does not. -/
theorem secondDimension_of_seen (h : Shape.secondDimension none ns = .ok none) (hc : c ∈ ns)
    (hdummy : c.isDummy = false) (hd : c.dimension = .ok (some d)) :
    Shape.secondDimension (some s) ns = .ok (if s = d then none else some (s, d)) := by
  induction ns with
  | nil => exact absurd hc List.not_mem_nil
  | cons n ns ih =>
    rcases dimension_of_secondDimension h with hskip | ⟨hn, d', hd'⟩
    · rw [secondDimension_skip hskip] at h ⊢
      rcases List.mem_cons.mp hc with rfl | hc
      · rw [hdummy, hd] at hskip
        exact nomatch hskip
      · exact ih h hc
    · -- the first operand with a dimension decides, and it has that of `c`
      obtain ⟨next, -, -, hall⟩ := secondDimension_append h
      have hsame : some d' = some d :=
        (hall n List.mem_cons_self hn d' hd').symm.trans (hall c hc hdummy d hd)
      rw [secondDimension_compare hn hd', Option.some.inj hsame]
      rw [secondDimension_see hn hd', hsame] at h
      split
      · rename_i hseen
        rw [hseen, h]
      · rfl

end

/-- No second dimension is found among operands that agree. -/
theorem secondDimension_of_uniform {target : String} (h : Shape.checkUniform n target = .ok ()) :
    Shape.secondDimension none n.children = .ok none := by
  obtain ⟨second, hsecond, hrest⟩ := bind_ok.mp h
  cases second with
  | none => exact hsecond
  | some pair => exact nomatch hrest

/-- **Operands that agree have the dimension of the node**, if the node takes its own from them. -/
theorem dimension_of_uniform {target : String} {d' : Dimension} (hn : n.dimension = .ok (some d))
    (hgenerator : Dimension.ofGenerator? n.tag = none)
    (huniform : Shape.checkUniform n target = .ok ()) (hc : c ∈ n.children)
    (hdummy : c.isDummy = false) (hd' : c.dimension = .ok (some d')) : d' = d := by
  obtain ⟨next, -, -, hall⟩ := secondDimension_append (secondDimension_of_uniform huniform)
  obtain ⟨first, hfirst, hfirstDummy, hfirstDimension⟩ :=
    firstDimension_some (firstDimension_of_dimension hn hgenerator)
  have hsame : some d' = some d :=
    (hall c hc hdummy d' hd').symm.trans (hall first hfirst hfirstDummy d hfirstDimension)
  exact Option.some.inj hsame

end Node

end SolidExport
