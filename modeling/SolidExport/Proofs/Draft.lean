/-
  When a draft succeeds, and what it has written then.

  Each way of building a draft has one law: `x e = .ok a e'` holds exactly when its parts ran through
  and wrote what they write.  Rewriting with these laws turns a successful run of an encoder into the
  list of its readings and of what was set and added, in order.
-/
import Mathlib.Data.List.Forall2
import SolidExport.Draft
import SolidExport.Proofs.Tree

namespace SolidExport.Draft

variable {α β : Type} {e e' : Element}

/-! ## Sequences -/

theorem pure_ok {a b : α} : (pure a : Draft α) e = .ok b e' ↔ b = a ∧ e' = e := by
  constructor
  · intro h
    injection h with ha he
    exact ⟨ha.symm, he.symm⟩
  · rintro ⟨rfl, rfl⟩
    rfl

theorem bind_ok {x : Draft α} {g : α → Draft β} {b : β} :
    (x >>= g) e = .ok b e' ↔ ∃ a m, x e = .ok a m ∧ g a m = .ok b e' := by
  show EStateM.bind x g e = _ ↔ _
  unfold EStateM.bind
  cases x e with
  | ok a m =>
    constructor
    · intro h
      exact ⟨a, m, rfl, h⟩
    · rintro ⟨a', m', heq, h⟩
      injection heq with ha hm
      subst ha hm
      exact h
  | error f m =>
    constructor
    · intro h
      exact nomatch h
    · rintro ⟨a', m', heq, -⟩
      exact nomatch heq

/-! ## Readings -/

theorem read_ok {x : Except Fault α} {a : α} : read x e = .ok a e' ↔ x = .ok a ∧ e' = e := by
  cases x with
  | ok b => rw [read, pure_ok, Except.ok.injEq, eq_comm (a := a)]
  | error f => exact iff_of_false (fun h => nomatch h) (fun h => nomatch h.1)

theorem inRange_ok {x : Except RangeFault α} {a : α} :
    inRange x e = .ok a e' ↔ x = .ok a ∧ e' = e := by
  cases x with
  | ok b => rw [inRange, pure_ok, Except.ok.injEq, eq_comm (a := a)]
  | error r => exact iff_of_false (fun h => nomatch h) (fun h => nomatch h.1)

/-! ## Writings -/

theorem number_ok {name : String} {x : Float} {u : Unit} :
    number name x e = .ok u e' ↔ e' = e.set name (.number x) := by
  constructor
  · intro h
    injection h with _ h
    exact h.symm
  · rintro rfl
    rfl

theorem boolean_ok {name : String} {b : Bool} {u : Unit} :
    boolean name b e = .ok u e' ↔ e' = e.set name (.boolean b) := by
  constructor
  · intro h
    injection h with _ h
    exact h.symm
  · rintro rfl
    rfl

theorem child_ok {tag : String} {body : Draft α} {a : α} :
    child tag body e = .ok a e' ↔ ∃ c, body (.new tag) = .ok a c ∧ e' = e.push c := by
  unfold child
  cases body (.new tag) with
  | ok b c =>
    constructor
    · intro h
      injection h with hb he
      subst hb he
      exact ⟨c, rfl, rfl⟩
    · rintro ⟨c', heq, rfl⟩
      injection heq with hb hc
      subst hb hc
      rfl
  | error f c =>
    constructor
    · intro h
      exact nomatch h
    · rintro ⟨c', heq, -⟩
      exact nomatch heq

/-! ## Followed by more -/

theorem read_bind_ok {x : Except Fault α} {g : α → Draft β} {b : β} :
    (read x >>= g) e = .ok b e' ↔ ∃ a, x = .ok a ∧ g a e = .ok b e' := by
  rw [bind_ok]
  constructor
  · rintro ⟨a, m, hread, h⟩
    obtain ⟨rfl, rfl⟩ := read_ok.mp hread
    exact ⟨a, rfl, h⟩
  · rintro ⟨a, rfl, h⟩
    exact ⟨a, e, rfl, h⟩

theorem number_bind_ok {name : String} {x : Float} {g : Unit → Draft β} {b : β} :
    (number name x >>= g) e = .ok b e' ↔ g () (e.set name (.number x)) = .ok b e' := Iff.rfl

theorem boolean_bind_ok {name : String} {v : Bool} {g : Unit → Draft β} {b : β} :
    (boolean name v >>= g) e = .ok b e' ↔ g () (e.set name (.boolean v)) = .ok b e' := Iff.rfl

theorem child_bind_ok {tag : String} {body : Draft α} {g : α → Draft β} {b : β} :
    (child tag body >>= g) e = .ok b e' ↔
      ∃ a c, body (.new tag) = .ok a c ∧ g a (e.push c) = .ok b e' := by
  rw [bind_ok]
  constructor
  · rintro ⟨a, m, hchild, h⟩
    obtain ⟨c, hc, rfl⟩ := child_ok.mp hchild
    exact ⟨a, c, hc, h⟩
  · rintro ⟨a, c, hc, h⟩
    exact ⟨a, e.push c, child_ok.mpr ⟨c, hc, rfl⟩, h⟩

/-- A draft behind a guard succeeds exactly if the guard does not hold and the draft does.  So what
    follows a guard may rely on it. -/
theorem guard_ok {c : Prop} [Decidable c] {f : Failure} {g : PUnit → Draft β} {k : Draft β} {b : β} :
    (if c then (throw f >>= g) else k) e = .ok b e' ↔ ¬ c ∧ k e = .ok b e' := by
  by_cases hc : c
  · rw [if_pos hc]
    exact iff_of_false (fun h => nomatch h) (fun h => h.1 hc)
  · rw [if_neg hc]
    exact ⟨fun h => ⟨hc, h⟩, fun h => h.2⟩

/-! ## Loops -/

/-- A loop whose body adds a child made of its item adds these children in order, if it succeeds. -/
theorem forM_map_ok {body : α → Draft Unit} {make : α → Element} {items : List α}
    (hbody : ∀ a e u e', body a e = .ok u e' → e' = e.push (make a)) {u : Unit}
    (h : items.forM body e = .ok u e') : e' = e.append (items.map make) := by
  induction items generalizing e with
  | nil =>
    obtain ⟨-, rfl⟩ := pure_ok.mp h
    exact (Element.append_nil _).symm
  | cons a items ih =>
    obtain ⟨v, m, ha, hrest⟩ := bind_ok.mp h
    rw [ih hrest, hbody a e v m ha]
    exact Element.append_append e [make a] (items.map make)

/-- A loop whose body adds one child for each item adds as many, and each is as the body makes it. -/
theorem forM_all_ok {body : α → Draft Unit} {P : Element → Prop} {items : List α}
    (hbody : ∀ a ∈ items, ∀ e u e', body a e = .ok u e' → ∃ c, P c ∧ e' = e.push c)
    {u : Unit} (h : items.forM body e = .ok u e') :
    ∃ cs, cs.length = items.length ∧ (∀ c ∈ cs, P c) ∧ e' = e.append cs := by
  induction items generalizing e with
  | nil =>
    obtain ⟨-, rfl⟩ := pure_ok.mp h
    exact ⟨[], rfl, fun c hc => absurd hc List.not_mem_nil, (Element.append_nil _).symm⟩
  | cons a items ih =>
    obtain ⟨v, m, ha, hrest⟩ := bind_ok.mp h
    obtain ⟨c, hc, rfl⟩ := hbody a List.mem_cons_self e v m ha
    obtain ⟨cs, hlength, hcs, rfl⟩ := ih (fun b hb => hbody b (List.mem_cons_of_mem _ hb)) hrest
    refine ⟨c :: cs, by rw [List.length_cons, List.length_cons, hlength], ?_,
      Element.append_append e [c] cs⟩
    intro c' hc'
    rcases List.mem_cons.mp hc' with rfl | hc'
    · exact hc
    · exact hcs c' hc'

/-- **A loop that adds a child for each item** runs through exactly when each body does, and then it
    has added what these make, in order. -/
theorem forM_push_ok {body : α → Draft Unit} {R : α → β → Prop} {make : β → Element}
    {items : List α} {u : Unit}
    (hbody : ∀ a ∈ items, ∀ e u e', body a e = .ok u e' ↔ ∃ b, R a b ∧ e' = e.push (make b)) :
    items.forM body e = .ok u e' ↔
      ∃ bs, List.Forall₂ R items bs ∧ e' = e.append (bs.map make) := by
  induction items generalizing e with
  | nil =>
    constructor
    · intro h
      obtain ⟨-, rfl⟩ := pure_ok.mp h
      exact ⟨[], .nil, (Element.append_nil _).symm⟩
    · rintro ⟨bs, hbs, rfl⟩
      obtain rfl := List.forall₂_nil_left_iff.mp hbs
      exact pure_ok.mpr ⟨rfl, Element.append_nil _⟩
  | cons a items ih =>
    have htail := fun e : Element => ih (e := e) fun b hb => hbody b (List.mem_cons_of_mem _ hb)
    have hsplit : (a :: items).forM body e = .ok u e' ↔
        ∃ v m, body a e = .ok v m ∧ items.forM body m = .ok u e' := bind_ok
    rw [hsplit]
    constructor
    · rintro ⟨v, m, ha, hrest⟩
      obtain ⟨b, hb, rfl⟩ := (hbody a List.mem_cons_self e v m).mp ha
      obtain ⟨bs, hbs, rfl⟩ := (htail _).mp hrest
      exact ⟨b :: bs, .cons hb hbs, Element.append_append e [make b] (bs.map make)⟩
    · rintro ⟨bs, hbs, rfl⟩
      obtain ⟨b, bs, hb, hrest, rfl⟩ := List.forall₂_cons_left_iff.mp hbs
      refine ⟨(), e.push (make b), (hbody a List.mem_cons_self _ _ _).mpr ⟨b, hb, rfl⟩, ?_⟩
      exact (htail _).mpr ⟨bs, hrest, (Element.append_append e [make b] (bs.map make)).symm⟩

/-- A loop that also counts its items succeeds exactly if each item `a` has some `b` with `R a b`,
    and then adds the children made of these in order. -/
theorem forM_zipIdx_push_ok {body : Nat → α → Draft Unit} {R : α → β → Prop} {make : β → Element}
    {items : List α} {u : Unit}
    (hbody : ∀ a ∈ items, ∀ i e u e',
      body i a e = .ok u e' ↔ ∃ b, R a b ∧ e' = e.push (make b)) :
    (items.zipIdx.forM fun (a, i) => body i a) e = .ok u e' ↔
      ∃ bs, List.Forall₂ R items bs ∧ e' = e.append (bs.map make) := by
  have hpairs : ∀ bs, List.Forall₂ (fun (q : α × Nat) b => R q.1 b) items.zipIdx bs ↔
      List.Forall₂ R items bs := by
    intro bs
    rw [← List.forall₂_map_left_iff (f := Prod.fst), List.zipIdx_map_fst]
  simp only [← hpairs]
  exact forM_push_ok fun q hq => hbody q.1 (List.fst_mem_of_mem_zipIdx hq) q.2

end SolidExport.Draft
