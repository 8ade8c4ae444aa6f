/-
  What a computation may fail with.

  `FailsWith P` says of a reading, and of a draft, that every way it fails is one of `P`.  There is one
  lemma for each way of building a reading or a draft, so that a proof about an encoder follows the
  text of the encoder.  Behind a reading that succeeded its result may be relied on, and behind a guard
  the guard.
-/
import SolidExport.Draft
import SolidExport.Proofs.Outcome

namespace SolidExport

/-! ## Readings -/

namespace Outcome

variable {ε α β : Type} {P : ε → Prop}

/-- `FailsWith P x` — every failure of the reading `x` is one of `P`.  Success is not asked for. -/
def FailsWith (P : ε → Prop) (x : Except ε α) : Prop := ∀ e, x = .error e → P e

namespace FailsWith

theorem ok (a : α) : FailsWith P (.ok a) := fun _ h => nomatch h

theorem error {e : ε} (h : P e) : FailsWith P (.error e : Except ε α) := by
  intro e' he
  injection he with he
  subst he
  exact h

theorem bind {x : Except ε α} {g : α → Except ε β} (hx : FailsWith P x)
    (hg : ∀ a, x = .ok a → FailsWith P (g a)) : FailsWith P (x >>= g) := by
  intro e h
  rcases bind_error h with hfirst | ⟨a, ha, hrest⟩
  · exact hx e hfirst
  · exact hg a ha e hrest

theorem map {x : Except ε α} (f : α → β) (hx : FailsWith P x) : FailsWith P (f <$> x) := by
  cases x with
  | ok a => exact ok (f a)
  | error e => exact error (hx e rfl)

theorem mapM {f : α → Except ε β} {as : List α} (h : ∀ a ∈ as, FailsWith P (f a)) :
    FailsWith P (as.mapM f) := by
  intro e he
  obtain ⟨a, ha, hfails⟩ := mapM_error he
  exact h a ha e hfails

theorem guard {c : Prop} [Decidable c] {e : ε} {g : PUnit → Except ε β} {k : Except ε β}
    (he : c → P e) (hk : ¬c → FailsWith P k) : FailsWith P (if c then (throw e >>= g) else k) := by
  by_cases hc : c
  · rw [if_pos hc]
    exact error (he hc)
  · rw [if_neg hc]
    exact hk hc

theorem mono {Q : ε → Prop} {x : Except ε α} (hPQ : ∀ e, P e → Q e) (h : FailsWith P x) :
    FailsWith Q x := fun e he => hPQ e (h e he)

end FailsWith

end Outcome

/-! ## Drafts -/

namespace Draft

variable {α β : Type} {P : Fault → Prop}

/-- `FailsWith P x` — every failure of the draft `x`, on whatever element, is a fault of `P`. -/
def FailsWith (P : Fault → Prop) (x : Draft α) : Prop :=
  ∀ e f e', x e = .error f e' → ∃ g, f = .fault g ∧ P g

namespace FailsWith

theorem pure (a : α) : FailsWith P (Pure.pure a : Draft α) := fun _ _ _ h => nomatch h

theorem fault {f : Fault} (h : P f) : FailsWith P (throw (.fault f) : Draft α) := by
  intro e f' e' hthrow
  injection hthrow with hf _
  exact ⟨f, hf.symm, h⟩

theorem read {x : Except Fault α} (hx : Outcome.FailsWith P x) : FailsWith P (Draft.read x) := by
  cases x with
  | ok a => exact pure a
  | error f => exact fault (hx f rfl)

theorem number (name : String) (x : Float) : FailsWith P (Draft.number name x) :=
  fun _ _ _ h => nomatch h

theorem boolean (name : String) (b : Bool) : FailsWith P (Draft.boolean name b) :=
  fun _ _ _ h => nomatch h

theorem bind {x : Draft α} {g : α → Draft β} (hx : FailsWith P x) (hg : ∀ a, FailsWith P (g a)) :
    FailsWith P (x >>= g) := by
  intro e f e' h
  change EStateM.bind x g e = _ at h
  unfold EStateM.bind at h
  cases hrun : x e with
  | ok a m =>
    rw [hrun] at h
    exact hg a m f e' h
  | error f' m =>
    rw [hrun] at h
    injection h with hf _
    subst hf
    exact hx e f' m hrun

/-- A reading and what follows it fail with `P` only, if each does.  What follows may rely on the
    reading. -/
theorem read_bind {x : Except Fault α} {g : α → Draft β} (hx : Outcome.FailsWith P x)
    (hg : ∀ a, x = .ok a → FailsWith P (g a)) : FailsWith P (Draft.read x >>= g) := by
  cases x with
  | ok a => exact hg a rfl
  | error f =>
    intro e f' e' h
    injection h with h _
    exact ⟨f, h.symm, hx f rfl⟩

/-- A guard that fails with `P`, and what follows it, fail with `P` only.  What follows may rely on
    the guard. -/
theorem guard {c : Prop} [Decidable c] {f : Fault} {g : PUnit → Draft β} {k : Draft β}
    (hf : c → P f) (hk : ¬c → FailsWith P k) :
    FailsWith P (if c then (throw (.fault f) >>= g) else k) := by
  by_cases hc : c
  · rw [if_pos hc]
    intro e f' e' h
    injection h with h _
    exact ⟨f, h.symm, hf hc⟩
  · rw [if_neg hc]
    exact hk hc

theorem child {tag : String} {body : Draft α} (h : FailsWith P body) :
    FailsWith P (Draft.child tag body) := by
  intro e f e' hrun
  unfold Draft.child at hrun
  cases hbody : body (.new tag) with
  | ok a c =>
    rw [hbody] at hrun
    exact nomatch hrun
  | error f' c =>
    rw [hbody] at hrun
    injection hrun with hf _
    subst hf
    exact h _ f' c hbody

theorem mono {Q : Fault → Prop} {x : Draft α} (hPQ : ∀ f, P f → Q f) (h : FailsWith P x) :
    FailsWith Q x := by
  intro e f e' hrun
  obtain ⟨g, rfl, hg⟩ := h e f e' hrun
  exact ⟨g, rfl, hPQ g hg⟩

theorem forM {items : List α} {body : α → Draft Unit} (h : ∀ a ∈ items, FailsWith P (body a)) :
    FailsWith P (items.forM body) := by
  induction items with
  | nil => exact pure _
  | cons a items ih =>
    exact bind (h a List.mem_cons_self) fun _ => ih fun b hb => h b (List.mem_cons_of_mem _ hb)

end FailsWith

end Draft

end SolidExport
