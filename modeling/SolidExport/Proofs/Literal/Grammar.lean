/-
  The grammar of literals, with its white space.

  A `Phrase` is a derivation: it records the white space between the tokens of a vector, where a
  `Value` leaves it out.  A `Derivation` is a phrase with white space around it.  Its text is `chars`,
  and the literal that it stands for is that of the value left when the white space is taken away.

  The text of a phrase is cut into the tokens of its value (`Phrase.cuts_chars`), so every derivation
  is read as its own literal (`Derivation.read?_chars`).
-/
import SolidExport.Proofs.Source.Value

namespace SolidExport.Source

open Literal (Token Pending Cutter Assembly)

/-! ## Derivations -/

/-- White space as written, perhaps none. -/
@[ext]
structure Gap where
  chars : List Char
  all_blank : chars.all Text.isBlank = true

theorem Gap.blank (g : Gap) : ∀ c ∈ g.chars, Text.isBlank c = true := List.all_eq_true.mp g.all_blank

mutual

/-- A literal as written, with the white space in it.  The white space around it belongs to where it
    stands. -/
inductive Phrase where
  | number (n : Numeral)
  | boolean (b : Bool)
  | string (marks : List Mark)
  /-- The vector without items. -/
  | empty (gap : Gap)
  | vector (gap : Gap) (items : Items)

/-- The items of a vector, from one of them up to the closing bracket.  There is at least one: a
    vector without items is a phrase of its own, since no comma stands in it. -/
inductive Items where
  | last (item : Phrase) (gap : Gap)
  /-- An item, a comma with white space on either side, and the other items. -/
  | more (item : Phrase) (before after : Gap) (others : Items)

end

mutual

def Phrase.chars : Phrase → List Char
  | .number n => n.chars
  | .boolean b => (Literal.booleanText b).toList
  | .string marks => '"' :: (marks.flatMap Mark.chars ++ ['"'])
  | .empty gap => '[' :: (gap.chars ++ [']'])
  | .vector gap items => '[' :: (gap.chars ++ items.chars)

def Items.chars : Items → List Char
  | .last item gap => item.chars ++ (gap.chars ++ [']'])
  | .more item before after others =>
    item.chars ++ (before.chars ++ ',' :: (after.chars ++ others.chars))

end

mutual

/-- `p.value` — the value that the phrase `p` writes, without the white space. -/
def Phrase.value : Phrase → Value
  | .number n => .number n
  | .boolean b => .boolean b
  | .string marks => .string marks
  | .empty _ => .vector []
  | .vector _ items => .vector items.values

def Items.values : Items → List Value
  | .last item _ => [item.value]
  | .more item _ _ others => item.value :: others.values

end

/-- A literal as written, between white space: a way to derive a whole text. -/
structure Derivation where
  before : Gap
  phrase : Phrase
  after : Gap

namespace Derivation

def chars (d : Derivation) : List Char :=
  d.before.chars ++ (d.phrase.chars ++ d.after.chars)

/-- `d.literal line` — the literal that the derivation `d` stands for when it is read on `line`. -/
def literal (line : Int) (d : Derivation) : Literal := d.phrase.value.literal line

end Derivation

/-! ## Cutting -/

/-- White space `ch` ends the pending word, which counts as a token then, and nothing else
    happens. -/
theorem step_blank {c : Cutter} {done : Array Token} (hc : Cutter.settle c = ⟨done, .idle⟩) {ch : Char}
    (hblank : Text.isBlank ch = true) : c.step ch = ⟨done, .idle⟩ := by
  have hends : Cutter.endsWord ch = true := by simp [Cutter.endsWord, hblank]
  have hstart : ∀ tokens pending, Cutter.start ⟨tokens, pending⟩ ch = ⟨tokens, .idle⟩ := by
    intro tokens pending
    exact if_pos hblank
  obtain ⟨tokens, pending⟩ := c
  cases pending with
  | idle =>
    injection hc with htokens
    subst htokens
    exact hstart tokens .idle
  | word text =>
    injection hc with htokens
    subst htokens
    show (if Cutter.endsWord ch = true then _ else _) = _
    rw [if_pos hends]
    exact hstart _ _
  | quoted value escaped =>
    injection hc with _ hpending
    cases hpending

/-- A gap is cut into no token, whatever word is pending before it. -/
theorem settle_gap (g : Gap) {c : Cutter} {done : Array Token}
    (hc : Cutter.settle c = ⟨done, .idle⟩) :
    Cutter.settle (g.chars.foldl Cutter.step c) = ⟨done, .idle⟩ := by
  have hblank := g.blank
  generalize g.chars = cs at hblank
  induction cs generalizing c with
  | nil => exact hc
  | cons ch cs ih =>
    rw [List.foldl_cons, step_blank hc (hblank ch List.mem_cons_self)]
    exact ih rfl fun d hd => hblank d (List.mem_cons_of_mem ch hd)

/-- Between tokens, a gap leaves the cutter where it is. -/
theorem foldl_gap (g : Gap) (done : Array Token) :
    g.chars.foldl Cutter.step ⟨done, .idle⟩ = ⟨done, .idle⟩ := by
  have hblank := g.blank
  generalize g.chars = cs at hblank
  induction cs with
  | nil => rfl
  | cons ch cs ih =>
    have hstep : Cutter.step ⟨done, .idle⟩ ch = ⟨done, .idle⟩ :=
      step_blank rfl (hblank ch List.mem_cons_self)
    rw [List.foldl_cons, hstep]
    exact ih fun d hd => hblank d (List.mem_cons_of_mem ch hd)

/-- `items.tokens` — the tokens of some items of a vector, with the bracket behind them. -/
def Items.tokens (items : Items) : List Token :=
  listed .comma (items.values.map Value.tokens) ++ [.closing]

theorem Items.values_ne_nil (items : Items) : items.values ≠ [] := by
  cases items with
  | last item gap => exact List.cons_ne_nil _ _
  | more item before after others => exact List.cons_ne_nil _ _

theorem Items.tokens_more (item : Phrase) (before after : Gap) (others : Items) :
    (Items.more item before after others).tokens = item.value.tokens ++ .comma :: others.tokens := by
  obtain ⟨v, vs, hvs⟩ := List.exists_cons_of_ne_nil others.values_ne_nil
  simp [Items.tokens, Items.values, hvs, listed]

mutual

/-- **A phrase is cut into the tokens of its value**, wherever its white space stands.  By induction
    on the phrase. -/
theorem Phrase.cuts_chars : ∀ p : Phrase, Cuts p.chars p.value.tokens
  | .number n => (Value.number n).cuts_chars
  | .boolean b => (Value.boolean b).cuts_chars
  | .string marks => (Value.string marks).cuts_chars
  | .empty gap => by
    intro done
    have hopen : Cutter.step ⟨done, .idle⟩ '[' = ⟨done.push .opening, .idle⟩ := rfl
    rw [Phrase.chars, List.foldl_cons, hopen, List.foldl_append, foldl_gap]
    show (⟨(done.push .opening).push .closing, .idle⟩ : Cutter) = ⟨done ++ #[.opening, .closing], .idle⟩
    rw [Array.push_eq_append, Array.push_eq_append, Array.append_assoc]
    rfl
  | .vector gap items => by
    intro done
    have hopen : Cutter.step ⟨done, .idle⟩ '[' = ⟨done.push .opening, .idle⟩ := rfl
    rw [Phrase.chars, List.foldl_cons, hopen, List.foldl_append, foldl_gap, items.foldl_chars]
    show (⟨_, .idle⟩ : Cutter) = _
    simp [Phrase.value, Value.tokens, Value.allTokens_eq, Items.tokens]

/-- Some items are cut into their tokens; the bracket behind them leaves nothing pending. -/
theorem Items.foldl_chars : ∀ (items : Items) (done : Array Token),
    items.chars.foldl Cutter.step ⟨done, .idle⟩ = ⟨done ++ items.tokens.toArray, .idle⟩
  | .last item gap, done => by
    have hitem := settle_gap gap (item.cuts_chars done)
    rw [Items.chars, List.foldl_append, List.foldl_append]
    show Cutter.step _ ']' = _
    rw [(step_separator hitem).2]
    simp [Items.tokens, Items.values, listed]
  | .more item before after others, done => by
    have hitem := settle_gap before (item.cuts_chars done)
    rw [Items.chars, List.foldl_append, List.foldl_append, List.foldl_cons, (step_separator hitem).1,
      List.foldl_append, foldl_gap, others.foldl_chars, Items.tokens_more]
    simp

end

/-- The whole text of a derivation is cut into the tokens of its value. -/
theorem Derivation.tokens?_chars (d : Derivation) :
    Literal.tokens? d.chars = some d.phrase.value.tokens := by
  unfold Literal.tokens? Derivation.chars
  rw [List.foldl_append, foldl_gap, List.foldl_append,
    finish_of_settle (settle_gap d.after (d.phrase.cuts_chars #[])), Array.empty_append]

/-- **A derivation is read as the literal it stands for**, on whatever line. -/
theorem Derivation.read?_chars (line : Int) (d : Derivation) :
    Literal.read? line (String.ofList d.chars) = some (d.literal line) := by
  unfold Literal.read? Literal.ofTokens?
  rw [String.toList_ofList, d.tokens?_chars, Option.bind_some, d.phrase.value.assembles_tokens line []]
  rfl

end SolidExport.Source
