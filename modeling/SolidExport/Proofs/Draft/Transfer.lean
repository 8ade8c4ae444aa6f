/-
  What one computation gives and another gives too.

  `Keeps g x y` says that wherever `x` succeeds, `y` does, with the result changed by `g`.  Nothing is
  said where `x` fails.  As for failures there is one lemma for each way of building a reading or a
  draft, so that a proof about an encoder follows the text of the encoder.
-/
import SolidExport.Draft
import SolidExport.Proofs.Outcome

namespace SolidExport

/-! ## Readings -/

namespace Outcome

variable {ε α β α' β' : Type} {g : α → β} {g' : α' → β'}

/-- `Keeps g x y` — where `x` succeeds, `y` does, with the result changed by `g`.  Where `x` fails,
    nothing is said of `y`. -/
def Keeps (g : α → β) (x : Except ε α) (y : Except ε β) : Prop := ∀ a, x = .ok a → y = .ok (g a)

namespace Keeps

theorem refl (x : Except ε α) : Keeps id x x := fun _ h => h

theorem ok (a : α) : Keeps g (.ok a : Except ε α) (.ok (g a)) := by
  intro b hb
  rw [Except.ok.inj hb]

theorem error {e : ε} {y : Except ε β} : Keeps g (.error e) y := fun _ h => nomatch h

theorem bind {x : Except ε α} {y : Except ε β} {f : α → Except ε α'} {f' : β → Except ε β'}
    (hx : Keeps g x y) (hf : ∀ a, Keeps g' (f a) (f' (g a))) : Keeps g' (x >>= f) (y >>= f') := by
  intro b hb
  obtain ⟨a, ha, hb⟩ := bind_ok.mp hb
  rw [hx a ha]
  exact hf a b hb

/-- Two readings behind the same guard: what the guard refuses with may differ, since failures are
    not compared. -/
theorem guard {c : Prop} [Decidable c] {e e' : ε} {f : PUnit → Except ε α} {f' : PUnit → Except ε β}
    {x : Except ε α} {y : Except ε β} (hx : Keeps g x y) :
    Keeps g (if c then (throw e >>= f) else x) (if c then (throw e' >>= f') else y) := by
  by_cases hc : c
  · rw [if_pos hc]
    exact error
  · rw [if_neg hc, if_neg hc]
    exact hx

theorem map {x y : Except ε α} (f : α → α') (hx : Keeps id x y) : Keeps id (f <$> x) (f <$> y) := by
  intro b hb
  obtain ⟨a, ha, rfl⟩ := map_ok.mp hb
  rw [hx a ha]
  rfl

theorem mapM {f : α → Except ε α'} {f' : β → Except ε α'} {as : List α}
    (h : ∀ a ∈ as, Keeps id (f a) (f' (g a))) : Keeps id (as.mapM f) ((as.map g).mapM f') := by
  induction as with
  | nil => exact refl _
  | cons a as ih =>
    rw [List.map_cons, List.mapM_cons, List.mapM_cons]
    refine bind (h a List.mem_cons_self) fun b => bind (ih fun c hc => ?_) fun bs => refl _
    exact h c (List.mem_cons_of_mem a hc)

end Keeps

end Outcome

/-! ## Drafts -/

namespace Draft

variable {α β α' : Type}

/-- `Keeps x y` — where the draft `x` succeeds, `y` does, with the same result, and leaves the same
    element. -/
def Keeps (x y : Draft α) : Prop := ∀ e a e', x e = .ok a e' → y e = .ok a e'

namespace Keeps

theorem refl (x : Draft α) : Keeps x x := fun _ _ _ h => h

theorem fault {f : Fault} {y : Draft α} : Keeps (throw (.fault f)) y := fun _ _ _ h => nomatch h

theorem bind {x y : Draft α} {f f' : α → Draft β} (hx : Keeps x y) (hf : ∀ a, Keeps (f a) (f' a)) :
    Keeps (x >>= f) (y >>= f') := by
  intro e b e' h
  change EStateM.bind x f e = _ at h
  show EStateM.bind y f' e = _
  unfold EStateM.bind at h ⊢
  cases hrun : x e with
  | ok a m =>
    rw [hrun] at h
    rw [hx e a m hrun]
    exact hf a m b e' h
  | error failure m => rw [hrun] at h; exact nomatch h

theorem read_bind {g : α → α'} {x : Except Fault α} {y : Except Fault α'} {f : α → Draft β}
    {f' : α' → Draft β} (hx : Outcome.Keeps g x y) (hf : ∀ a, Keeps (f a) (f' (g a))) :
    Keeps (Draft.read x >>= f) (Draft.read y >>= f') := by
  cases x with
  | ok a =>
    rw [hx a rfl]
    exact hf a
  | error failure => exact fun _ _ _ h => nomatch h

theorem read {x y : Except Fault α} (hx : Outcome.Keeps id x y) :
    Keeps (Draft.read x) (Draft.read y) := by
  cases x with
  | ok a =>
    rw [hx a rfl]
    exact refl _
  | error failure => exact fun _ _ _ h => nomatch h

/-- Two drafts behind the same guard: what the guard refuses with may differ, since failures are not
    compared. -/
theorem guard {c : Prop} [Decidable c] {f f' : Failure} {g g' : PUnit → Draft β} {k k' : Draft β}
    (hk : Keeps k k') :
    Keeps (if c then (throw f >>= g) else k) (if c then (throw f' >>= g') else k') := by
  by_cases hc : c
  · rw [if_pos hc]
    exact fun _ _ _ h => nomatch h
  · rw [if_neg hc, if_neg hc]
    exact hk

theorem child {tag : String} {x y : Draft α} (h : Keeps x y) :
    Keeps (Draft.child tag x) (Draft.child tag y) := by
  intro e a e' hrun
  unfold Draft.child at hrun ⊢
  cases hx : x (.new tag) with
  | ok b c =>
    rw [hx] at hrun
    rw [h _ b c hx]
    exact hrun
  | error failure c => rw [hx] at hrun; exact nomatch hrun

theorem forM_map {g : α → α'} {items : List α} {body : α → Draft Unit} {body' : α' → Draft Unit}
    (h : ∀ a, Keeps (body a) (body' (g a))) :
    Keeps (items.forM body) ((items.map g).forM body') := by
  induction items with
  | nil => exact refl _
  | cons a items ih => exact bind (h a) fun _ => ih

theorem forM {items : List α} {body body' : α → Draft Unit} (h : ∀ a, Keeps (body a) (body' a)) :
    Keeps (items.forM body) (items.forM body') := by
  have hmap : Keeps (items.forM body) ((items.map id).forM body') := forM_map h
  rwa [List.map_id] at hmap

end Keeps

end Draft

end SolidExport
