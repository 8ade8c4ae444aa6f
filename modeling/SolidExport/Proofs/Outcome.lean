/-
  Computations that may fail, and what holds if they do not.

  A sequence of steps succeeds when each does (`bind_ok`, `map_ok`), a list of readings when each
  does, and each gives the result in its place (`mapM_ok`, `getElem?_of_mapM_ok`); it fails as one of
  them does (`bind_error`, `map_error`, `mapM_error`).  A run that takes one step for each item goes
  on from where it stands (`foldlM_cons_of_ok`, `foldlM_append_of_ok`) and keeps what every step keeps
  (`foldlM_ok`, `foldlM_done`, `foldlM_some`).  If it fails, it fails at one item, behind a run that
  succeeds (`foldlM_error`).
-/
import Mathlib.Data.List.Forall2

namespace SolidExport.Outcome

variable {ε α β σ : Type}

theorem bind_ok {x : Except ε α} {f : α → Except ε β} {b : β} :
    (x >>= f) = .ok b ↔ ∃ a, x = .ok a ∧ f a = .ok b := by
  cases x with
  | error e => exact iff_of_false (fun h => nomatch h) (fun ⟨_, h, _⟩ => nomatch h)
  | ok a =>
    constructor
    · intro h
      exact ⟨a, rfl, h⟩
    · rintro ⟨a', ha, h⟩
      injection ha with ha
      subst ha
      exact h

/-- A sequence of two fails when the first does, or when the second does with the result of the
    first. -/
theorem bind_error {x : Except ε α} {f : α → Except ε β} {e : ε} (h : (x >>= f) = .error e) :
    x = .error e ∨ ∃ a, x = .ok a ∧ f a = .error e := by
  cases x with
  | error e' =>
    injection h with h
    exact Or.inl (congrArg _ h)
  | ok a => exact Or.inr ⟨a, rfl, h⟩

theorem map_ok {x : Except ε α} {f : α → β} {b : β} :
    f <$> x = .ok b ↔ ∃ a, x = .ok a ∧ f a = b := by
  cases x with
  | error e => exact iff_of_false (fun h => nomatch h) (fun ⟨_, h, _⟩ => nomatch h)
  | ok a =>
    show Except.ok (f a) = .ok b ↔ _
    rw [Except.ok.injEq]
    constructor
    · intro h
      exact ⟨a, rfl, h⟩
    · rintro ⟨a', ha, h⟩
      injection ha with ha
      subst ha
      exact h

/-- A result that is mapped fails exactly when it is none: the map itself cannot fail. -/
theorem map_error {x : Except ε α} {f : α → β} {e : ε} : f <$> x = .error e ↔ x = .error e := by
  cases x with
  | error e' => exact ⟨fun h => congrArg _ (Except.error.inj h), fun h => congrArg _ (Except.error.inj h)⟩
  | ok a => exact iff_of_false (fun h => nomatch h) (fun h => nomatch h)

/-- Readings in a row that succeed give one result for each item, in order. -/
theorem mapM_ok {f : α → Except ε β} {as : List α} {bs : List β} (h : as.mapM f = .ok bs) :
    List.Forall₂ (fun a b => f a = .ok b) as bs := by
  induction as generalizing bs with
  | nil =>
    injection h with h
    subst h
    exact List.Forall₂.nil
  | cons a as ih =>
    rw [List.mapM_cons] at h
    obtain ⟨b, hb, h⟩ := bind_ok.mp h
    obtain ⟨rest, hrest, h⟩ := bind_ok.mp h
    injection h with h
    subst h
    exact List.Forall₂.cons hb (ih hrest)

theorem mapM_ok_iff {f : α → Except ε β} {as : List α} {bs : List β} :
    as.mapM f = .ok bs ↔ List.Forall₂ (fun a b => f a = .ok b) as bs := by
  refine ⟨mapM_ok, fun h => ?_⟩
  induction h with
  | nil => rfl
  | cons hab _ ih =>
    rw [List.mapM_cons, hab, ih]
    rfl

/-- Readings in a row that fail do so as one of them does. -/
theorem mapM_error {f : α → Except ε β} {as : List α} {e : ε} (h : as.mapM f = .error e) :
    ∃ a ∈ as, f a = .error e := by
  induction as with
  | nil => exact nomatch h
  | cons a as ih =>
    rw [List.mapM_cons] at h
    rcases bind_error h with ha | ⟨b, -, hrest⟩
    · exact ⟨a, List.mem_cons_self, ha⟩
    · rcases bind_error hrest with hmore | ⟨bs, -, hpure⟩
      · obtain ⟨a', ha', herror⟩ := ih hmore
        exact ⟨a', List.mem_cons_of_mem a ha', herror⟩
      · exact nomatch hpure

/-- Where two lists are related item by item, each item `b` of the second comes from one of the
    first. -/
theorem exists_of_forall₂ {R : α → β → Prop} {as : List α} {bs : List β} (h : List.Forall₂ R as bs)
    {b : β} (hb : b ∈ bs) : ∃ a ∈ as, R a b := by
  induction h with
  | nil => exact absurd hb List.not_mem_nil
  | @cons a b' as bs hab _ ih =>
    rcases List.mem_cons.mp hb with rfl | hb
    · exact ⟨a, List.mem_cons_self, hab⟩
    · obtain ⟨c, hc, hcb⟩ := ih hb
      exact ⟨c, List.mem_cons_of_mem _ hc, hcb⟩

theorem forall₂_and_right {R : α → β → Prop} {P : β → Prop} {as : List α} {bs : List β} :
    List.Forall₂ (fun a b => R a b ∧ P b) as bs ↔ List.Forall₂ R as bs ∧ ∀ b ∈ bs, P b := by
  constructor
  · intro h
    refine ⟨h.imp fun _ _ hab => hab.1, fun b hb => ?_⟩
    obtain ⟨a, -, -, hP⟩ := exists_of_forall₂ h hb
    exact hP
  · rintro ⟨h, hP⟩
    induction h with
    | nil => exact .nil
    | cons hab _ ih =>
      refine .cons ⟨hab, hP _ List.mem_cons_self⟩ (ih fun b hb => ?_)
      exact hP b (List.mem_cons_of_mem _ hb)

/-- Each result of readings in a row comes from one of the items. -/
theorem mem_of_mapM_ok {f : α → Except ε β} {as : List α} {bs : List β} (h : as.mapM f = .ok bs)
    {b : β} (hb : b ∈ bs) : ∃ a ∈ as, f a = .ok b :=
  exists_of_forall₂ (mapM_ok h) hb

/-- The item at a place gives the result at that place. -/
theorem getElem?_of_mapM_ok {f : α → Except ε β} {as : List α} {bs : List β}
    (h : as.mapM f = .ok bs) {i : Nat} {a : α} (ha : as[i]? = some a) :
    ∃ b, bs[i]? = some b ∧ f a = .ok b := by
  have hall := mapM_ok h
  clear h
  induction hall generalizing i with
  | nil => exact nomatch ha
  | @cons a' b as bs hab _ ih =>
    cases i with
    | zero =>
      injection ha with ha
      subst ha
      exact ⟨b, rfl, hab⟩
    | succ i => exact ih ha

/-- After a first step that succeeds, the run goes on from the state `m` that the step has left. -/
theorem foldlM_cons_of_ok {step : σ → α → Except ε σ} {s m : σ} {a : α} (h : step s a = .ok m)
    (as : List α) : (a :: as).foldlM step s = as.foldlM step m := by
  rw [List.foldlM_cons, h]
  rfl

/-- After a run over `as` that succeeds, the run goes on over `bs` from the state `m` that it has
    left. -/
theorem foldlM_append_of_ok {step : σ → α → Except ε σ} {s m : σ} {as : List α}
    (h : as.foldlM step s = .ok m) (bs : List α) :
    (as ++ bs).foldlM step s = bs.foldlM step m := by
  rw [List.foldlM_append, h]
  rfl

/-- A run that succeeds keeps what every step keeps.  This is the run lemma behind most of the
    others. -/
theorem foldlM_ok {step : σ → α → Except ε σ} {Keeps : σ → Prop} {as : List α}
    (hstep : ∀ s a s', a ∈ as → Keeps s → step s a = .ok s' → Keeps s') {s s' : σ} (hs : Keeps s)
    (h : as.foldlM step s = .ok s') : Keeps s' := by
  induction as generalizing s with
  | nil =>
    injection h with h
    subst h
    exact hs
  | cons a as ih =>
    rw [List.foldlM_cons] at h
    obtain ⟨m, hm, h⟩ := bind_ok.mp h
    refine ih ?_ (hstep s a m List.mem_cons_self hs hm) h
    intro t b t' hb ht htb
    exact hstep t b t' (List.mem_cons_of_mem _ hb) ht htb

/-- A run that succeeds keeps what every step keeps, where `Keeps done s` may also speak of the
    items `done` that were taken so far.  At the end these are all of them. -/
theorem foldlM_done {step : σ → α → Except ε σ} {Keeps : List α → σ → Prop}
    (hstep : ∀ done s a s', Keeps done s → step s a = .ok s' → Keeps (done ++ [a]) s') {as : List α}
    {s s' : σ} (hs : Keeps [] s) (h : as.foldlM step s = .ok s') : Keeps as s' := by
  have hrun : ∀ (as done : List α) (s : σ), Keeps done s → as.foldlM step s = .ok s' →
      Keeps (done ++ as) s' := by
    intro as
    induction as with
    | nil =>
      intro done s hs h
      injection h with h
      subst h
      rwa [List.append_nil]
    | cons a as ih =>
      intro done s hs h
      rw [List.foldlM_cons] at h
      obtain ⟨m, hm, h⟩ := bind_ok.mp h
      have hrest := ih (done ++ [a]) m (hstep done s a m hs hm) h
      rwa [List.append_assoc, List.singleton_append] at hrest
  exact hrun as [] s hs h

/-- A run that fails does so at one item, behind items that it takes. -/
theorem foldlM_error {step : σ → α → Except ε σ} {as : List α} {s : σ} {e : ε}
    (h : as.foldlM step s = .error e) : ∃ before a after m, as = before ++ a :: after ∧
      before.foldlM step s = .ok m ∧ step m a = .error e := by
  induction as generalizing s with
  | nil => exact nomatch h
  | cons a as ih =>
    rw [List.foldlM_cons] at h
    rcases bind_error h with ha | ⟨t, ht, hrest⟩
    · exact ⟨[], a, as, s, rfl, rfl, ha⟩
    · obtain ⟨before, b, after, m, rfl, hbefore, hb⟩ := ih hrest
      exact ⟨a :: before, b, after, m, rfl, (foldlM_cons_of_ok ht before).trans hbefore, hb⟩

/-- A run that ends with an answer keeps what every step keeps, for steps that may have none. -/
theorem foldlM_some {step : σ → α → Option σ} {Keeps : σ → Prop} {as : List α}
    (hstep : ∀ s a s', Keeps s → step s a = some s' → Keeps s') {s s' : σ} (hs : Keeps s)
    (h : as.foldlM step s = some s') : Keeps s' := by
  induction as generalizing s with
  | nil =>
    injection h with h
    subst h
    exact hs
  | cons a as ih =>
    rw [List.foldlM_cons] at h
    obtain ⟨m, hm, h⟩ := Option.bind_eq_some_iff.mp h
    exact ih (hstep s a m hs hm) h

end SolidExport.Outcome
