/-
  The reader of literals accepts exactly the grammar, and no text has two derivations.

  A text is split in one way where a longest run of one class of characters ends (`span_unique`).  So
  the text of a number determines its parts (`Numeral.chars_injective`), and the text of a phrase in
  front of something that ends a word determines the phrase and what follows
  (`Phrase.chars_append_inj`), by induction on the phrase with the items of a vector beside it.
-/
import SolidExport.Proofs.Literal.Sound

namespace SolidExport.Source

/-! ## Longest runs -/

/-- `StopsAt p rest` — the text `rest` begins with no character of the class `p`, so that a text of
    that class in front of it ends there. -/
def StopsAt (p : Char → Bool) (rest : List Char) : Prop := ∀ c ∈ rest.head?, p c = false

theorem stopsAt_nil (p : Char → Bool) : StopsAt p [] := nofun

theorem stopsAt_cons {p : Char → Bool} {c : Char} (hc : p c = false) (cs : List Char) :
    StopsAt p (c :: cs) := by
  rintro d hd
  cases hd
  exact hc

/-- A text of the class `p`, up to where it stops, is found again: there is one place to cut. -/
theorem span_unique {p : Char → Bool} {cs ds rest rest' : List Char} (hcs : ∀ c ∈ cs, p c = true)
    (hds : ∀ c ∈ ds, p c = true) (hrest : StopsAt p rest) (hrest' : StopsAt p rest')
    (h : cs ++ rest = ds ++ rest') : cs = ds ∧ rest = rest' := by
  obtain ⟨htake, hdrop⟩ := span_append hcs hrest
  obtain ⟨htake', hdrop'⟩ := span_append hds hrest'
  rw [h] at htake hdrop
  exact ⟨htake.symm.trans htake', hdrop.symm.trans hdrop'⟩

theorem gap_unique {g g' : Gap} {rest rest' : List Char} (hrest : StopsAt Text.isBlank rest)
    (hrest' : StopsAt Text.isBlank rest') (h : g.chars ++ rest = g'.chars ++ rest') :
    g = g' ∧ rest = rest' := by
  obtain ⟨hchars, hrests⟩ := span_unique g.blank g'.blank hrest hrest' h
  exact ⟨Gap.ext hchars, hrests⟩

/-- White space in front of a mark is found again, with the mark, if that is no white space
    itself. -/
theorem gap_mark_unique {g g' : Gap} {c c' : Char} {rest rest' : List Char}
    (hc : Text.isBlank c = false) (hc' : Text.isBlank c' = false)
    (h : g.chars ++ c :: rest = g'.chars ++ c' :: rest') : g = g' ∧ c = c' ∧ rest = rest' := by
  obtain ⟨hgap, hrests⟩ := gap_unique (stopsAt_cons hc rest) (stopsAt_cons hc' rest') h
  obtain ⟨hmark, hbehind⟩ := List.cons.inj hrests
  exact ⟨hgap, hmark, hbehind⟩

/-! ## Numbers -/

theorem sign_unique {s s' : Sign} {cs ds : List Char} (hcs : ∀ c ∈ cs.head?, c ≠ '+' ∧ c ≠ '-')
    (hds : ∀ c ∈ ds.head?, c ≠ '+' ∧ c ≠ '-') (h : s.chars ++ cs = s'.chars ++ ds) :
    s = s' ∧ cs = ds := by
  cases s with
  | unsigned =>
    cases s' with
    | unsigned => exact ⟨rfl, h⟩
    | plus =>
      have hcs' : cs = '+' :: ds := h
      exact absurd rfl (hcs '+' (by rw [hcs']; rfl)).1
    | minus =>
      have hcs' : cs = '-' :: ds := h
      exact absurd rfl (hcs '-' (by rw [hcs']; rfl)).2
  | plus =>
    cases s' with
    | unsigned =>
      have hds' : '+' :: cs = ds := h
      exact absurd rfl (hds '+' (by rw [← hds']; rfl)).1
    | plus => exact ⟨rfl, (List.cons.inj h).2⟩
    | minus => exact absurd (List.cons.inj h).1 (by decide)
  | minus =>
    cases s' with
    | unsigned =>
      have hds' : '-' :: cs = ds := h
      exact absurd rfl (hds '-' (by rw [← hds']; rfl)).2
    | plus => exact absurd (List.cons.inj h).1 (by decide)
    | minus => exact ⟨rfl, (List.cons.inj h).2⟩

theorem Exponent.chars_injective {e e' : Exponent} (h : e.chars = e'.chars) : e = e' := by
  obtain ⟨capital, sign, digits, hall, hne⟩ := e
  obtain ⟨capital', sign', digits', hall', hne'⟩ := e'
  obtain ⟨hletter, hrest⟩ := List.cons.inj h
  obtain ⟨rfl, rfl⟩ := sign_unique (head_of_digits hall) (head_of_digits hall') hrest
  have hcapital : capital = capital' := by
    cases capital with
    | true =>
      cases capital' with
      | true => rfl
      | false => exact absurd hletter (show 'E' ≠ 'e' by decide)
    | false =>
      cases capital' with
      | true => exact absurd hletter (show 'e' ≠ 'E' by decide)
      | false => rfl
  subst hcapital
  rfl

theorem Exponent.elim_chars_injective {e e' : Option Exponent}
    (h : e.elim [] Exponent.chars = e'.elim [] Exponent.chars) : e = e' := by
  cases e with
  | none =>
    cases e' with
    | none => rfl
    | some e' => exact nomatch h
  | some e =>
    cases e' with
    | none => exact nomatch h
    | some e' => exact congrArg some (Exponent.chars_injective h)

/-- A number has one derivation: its sign, its digits, its point and its exponent can be read off
    its text. -/
theorem Numeral.chars_injective {n m : Numeral} (h : n.chars = m.chars) : n = m := by
  obtain ⟨hsign, hunsigned⟩ := sign_unique n.head_unsignedChars m.head_unsignedChars h
  -- what follows the digits of the front is the point or the exponent
  have hstop : ∀ k : Numeral, StopsAt isDigit (k.exponent.elim [] Exponent.chars) :=
    fun k c hc => (k.readExponent?_exponent.2 c hc).1
  have hpoint : ∀ k : Numeral,
      StopsAt isDigit (k.fraction.elim [] ('.' :: ·) ++ k.exponent.elim [] Exponent.chars) := by
    intro k
    cases k.fraction with
    | none => exact hstop k
    | some fraction => exact stopsAt_cons (by decide) _
  have hletter : ∀ k : Numeral, ∀ cs, k.exponent.elim [] Exponent.chars ≠ '.' :: cs := by
    intro k cs hcs
    exact (k.readExponent?_exponent.2 '.' (by rw [hcs]; rfl)).2 rfl
  obtain ⟨hwhole, hrest⟩ := span_unique (List.all_eq_true.mp n.whole_digits)
    (List.all_eq_true.mp m.whole_digits) (hpoint n) (hpoint m) hunsigned
  have hparts : n.fraction = m.fraction ∧
      n.exponent.elim [] Exponent.chars = m.exponent.elim [] Exponent.chars := by
    have hn := n.fraction_digits
    have hm := m.fraction_digits
    cases hf : n.fraction with
    | none =>
      cases hf' : m.fraction with
      | none =>
        rw [hf, hf'] at hrest
        exact ⟨rfl, hrest⟩
      | some fraction' =>
        rw [hf, hf'] at hrest
        exact absurd hrest (hletter n _)
    | some fraction =>
      cases hf' : m.fraction with
      | none =>
        rw [hf, hf'] at hrest
        exact absurd hrest.symm (hletter m _)
      | some fraction' =>
        rw [hf] at hn hrest
        rw [hf'] at hm hrest
        obtain ⟨rfl, hexponent⟩ := span_unique (List.all_eq_true.mp hn) (List.all_eq_true.mp hm)
          (hstop n) (hstop m) (List.cons.inj hrest).2
        exact ⟨rfl, hexponent⟩
  have hexponent : n.exponent = m.exponent := Exponent.elim_chars_injective hparts.2
  obtain ⟨sign, whole, fraction, exponent, _, _, _⟩ := n
  obtain ⟨sign', whole', fraction', exponent', _, _, _⟩ := m
  obtain ⟨rfl, -⟩ := hparts
  subst hsign hwhole hexponent
  rfl

/-! ## Strings -/

/-- The marks of a string go up to its closing quote, and are found again, since an escaped quote
    stands behind a backslash. -/
theorem marks_unique {marks marks' : List Mark} {rest rest' : List Char}
    (h : marks.flatMap Mark.chars ++ '"' :: rest = marks'.flatMap Mark.chars ++ '"' :: rest') :
    marks = marks' ∧ rest = rest' := by
  induction marks generalizing marks' with
  | nil =>
    cases marks' with
    | nil => exact ⟨rfl, (List.cons.inj h).2⟩
    | cons m marks' =>
      cases m with
      | bare c free => exact absurd (List.cons.inj h).1.symm free.1
      | escaped c => exact absurd (List.cons.inj h).1 (by decide)
  | cons m marks ih =>
    cases marks' with
    | nil =>
      cases m with
      | bare c free => exact absurd (List.cons.inj h).1 free.1
      | escaped c => exact absurd (List.cons.inj h).1 (by decide)
    | cons m' marks' =>
      cases m with
      | bare c free =>
        cases m' with
        | bare c' free' =>
          obtain ⟨rfl, htail⟩ := List.cons.inj h
          obtain ⟨rfl, hrest⟩ := ih htail
          exact ⟨rfl, hrest⟩
        | escaped c' => exact absurd (List.cons.inj h).1 free.2
      | escaped c =>
        cases m' with
        | bare c' free' => exact absurd (List.cons.inj h).1.symm free'.2
        | escaped c' =>
          obtain ⟨rfl, htail⟩ := List.cons.inj (List.cons.inj h).2
          obtain ⟨rfl, hrest⟩ := ih htail
          exact ⟨rfl, hrest⟩

/-! ## Phrases -/

/-- A text that begins with a word does not begin with a character `c` that is not ordinary. -/
theorem word_append_ne {w : List Char} (hw : IsWord w) (hne : w ≠ []) {c : Char}
    (hc : isOrdinary c = false) (rest cs : List Char) : w ++ rest ≠ c :: cs := by
  intro h
  obtain ⟨d, ds, rfl⟩ := List.exists_cons_of_ne_nil hne
  have hd := hw d List.mem_cons_self
  rw [(List.cons.inj h).1, hc] at hd
  exact nomatch hd

theorem booleanText_ne_nil (b : Bool) : (Literal.booleanText b).toList ≠ [] := by
  cases b <;> decide

/-- A phrase begins with no white space and with no closing bracket, so it is told from a gap and
    from the end of a vector. -/
theorem Phrase.chars_cons (p : Phrase) :
    ∃ c cs, p.chars = c :: cs ∧ Text.isBlank c = false ∧ c ≠ ']' := by
  have hword : ∀ w : List Char, IsWord w → w ≠ [] →
      ∃ c cs, w = c :: cs ∧ Text.isBlank c = false ∧ c ≠ ']' := by
    intro w hw hne
    obtain ⟨c, cs, rfl⟩ := List.exists_cons_of_ne_nil hne
    have hc := hw c List.mem_cons_self
    exact ⟨c, cs, rfl, isBlank_of_isOrdinary hc, ne_of_isOrdinary hc (by decide)⟩
  cases p with
  | number n => exact hword n.chars n.isWord_chars n.chars_ne_nil
  | boolean b => exact hword _ (isWord_booleanText b) (booleanText_ne_nil b)
  | string marks => exact ⟨'"', _, rfl, by decide, by decide⟩
  | empty gap => exact ⟨'[', _, rfl, by decide, by decide⟩
  | vector gap items => exact ⟨'[', _, rfl, by decide, by decide⟩

theorem Phrase.stopsAt_chars (p : Phrase) (rest : List Char) :
    StopsAt Text.isBlank (p.chars ++ rest) := by
  obtain ⟨c, cs, hp, hblank, -⟩ := p.chars_cons
  rw [hp]
  exact stopsAt_cons hblank _

theorem Items.chars_eq (items : Items) :
    ∃ (item : Phrase) (rest : List Char), items.chars = item.chars ++ rest := by
  cases items with
  | last item gap => exact ⟨item, _, rfl⟩
  | more item before after others => exact ⟨item, _, rfl⟩

theorem Items.stopsAt_chars (items : Items) (rest : List Char) :
    StopsAt Text.isBlank (items.chars ++ rest) := by
  obtain ⟨item, cs, hitems⟩ := items.chars_eq
  rw [hitems, List.append_assoc]
  exact item.stopsAt_chars _

/-- Behind an opening bracket, a closing bracket and items are told apart by the first character. -/
theorem Items.chars_append_ne (items : Items) (rest cs : List Char) :
    items.chars ++ rest ≠ ']' :: cs := by
  intro h
  obtain ⟨item, ds, hitems⟩ := items.chars_eq
  obtain ⟨c, es, hitem, -, hne⟩ := item.chars_cons
  rw [hitems, hitem] at h
  exact hne (List.cons.inj h).1

/-- A gap, and what ends a word behind it, ends a word. -/
theorem stopsAt_gap (g : Gap) {rest : List Char} (hrest : StopsAt isOrdinary rest) :
    StopsAt isOrdinary (g.chars ++ rest) := by
  have hblank := g.blank
  cases hchars : g.chars with
  | nil => exact hrest
  | cons c cs =>
    have hc : Text.isBlank c = true := hblank c (by rw [hchars]; exact List.mem_cons_self)
    refine stopsAt_cons ?_ _
    rw [Bool.eq_false_iff]
    intro hordinary
    rw [isBlank_of_isOrdinary hordinary] at hc
    exact nomatch hc

/-- A phrase whose text is a word is the only one with this text: it is a number or a truth value,
    and neither is written like the other. -/
theorem Phrase.eq_of_word {p q : Phrase} (hp : IsWord p.chars) (h : p.chars = q.chars) : p = q := by
  have hq : IsWord q.chars := h ▸ hp
  cases p with
  | number n =>
    cases q with
    | number m => rw [Numeral.chars_injective h]
    | boolean b =>
      have hnone : Decimal.readFloat? (Literal.booleanText b).toList = none := by cases b <;> rfl
      exact absurd h (n.chars_ne hnone)
    | string marks => exact absurd (hq '"' List.mem_cons_self) (by decide)
    | empty gap => exact absurd (hq '[' List.mem_cons_self) (by decide)
    | vector gap items => exact absurd (hq '[' List.mem_cons_self) (by decide)
  | boolean b =>
    cases q with
    | number m =>
      have hnone : Decimal.readFloat? (Literal.booleanText b).toList = none := by cases b <;> rfl
      exact absurd h.symm (m.chars_ne hnone)
    | boolean b' =>
      cases b with
      | true =>
        cases b' with
        | true => rfl
        | false => exact absurd h (show "true".toList ≠ "false".toList by decide)
      | false =>
        cases b' with
        | true => exact absurd h (show "false".toList ≠ "true".toList by decide)
        | false => rfl
    | string marks => exact absurd (hq '"' List.mem_cons_self) (by decide)
    | empty gap => exact absurd (hq '[' List.mem_cons_self) (by decide)
    | vector gap items => exact absurd (hq '[' List.mem_cons_self) (by decide)
  | string marks => exact absurd (hp '"' List.mem_cons_self) (by decide)
  | empty gap => exact absurd (hp '[' List.mem_cons_self) (by decide)
  | vector gap items => exact absurd (hp '[' List.mem_cons_self) (by decide)

/-- The text of a number or a truth value ends where no ordinary character follows, so it is found
    again. -/
theorem Phrase.word_append_inj {p q : Phrase} (hp : IsWord p.chars) {rest rest' : List Char}
    (hrest : StopsAt isOrdinary rest) (hrest' : StopsAt isOrdinary rest')
    (h : p.chars ++ rest = q.chars ++ rest') : p = q ∧ rest = rest' := by
  obtain ⟨c, cs, hcs, -, -⟩ := p.chars_cons
  have hne : p.chars ≠ [] := by
    rw [hcs]
    exact List.cons_ne_nil c cs
  have hwords : IsWord q.chars → p = q ∧ rest = rest' := by
    intro hq
    obtain ⟨hchars, hrests⟩ := span_unique hp hq hrest hrest' h
    exact ⟨Phrase.eq_of_word hp hchars, hrests⟩
  cases q with
  | number m => exact hwords m.isWord_chars
  | boolean b => exact hwords (isWord_booleanText b)
  | string marks => exact absurd h (word_append_ne hp hne (by decide) _ _)
  | empty gap => exact absurd h (word_append_ne hp hne (by decide) _ _)
  | vector gap items => exact absurd h (word_append_ne hp hne (by decide) _ _)

/-- Two phrases with one text in front of what ends a word are words both or neither. -/
theorem Phrase.not_isWord {p q : Phrase} (hp : ¬ IsWord p.chars) {rest rest' : List Char}
    (hrest : StopsAt isOrdinary rest) (hrest' : StopsAt isOrdinary rest')
    (h : p.chars ++ rest = q.chars ++ rest') : ¬ IsWord q.chars := by
  intro hq
  obtain ⟨rfl, -⟩ := Phrase.word_append_inj hq hrest' hrest h.symm
  exact hp hq

mutual

/-- **The text of a phrase, in front of what ends a word, determines the phrase.**  By induction on
    the phrase, together with its items. -/
theorem Phrase.chars_append_inj : ∀ (p q : Phrase) {rest rest' : List Char},
    StopsAt isOrdinary rest → StopsAt isOrdinary rest' → p.chars ++ rest = q.chars ++ rest' →
      p = q ∧ rest = rest'
  | .number n, q, rest, rest', hrest, hrest', h =>
    Phrase.word_append_inj (p := .number n) n.isWord_chars hrest hrest' h
  | .boolean b, q, rest, rest', hrest, hrest', h =>
    Phrase.word_append_inj (p := .boolean b) (isWord_booleanText b) hrest hrest' h
  | .string marks, q, rest, rest', hrest, hrest', h => by
    have hq : ¬ IsWord q.chars :=
      Phrase.not_isWord (p := .string marks) (fun hw => nomatch hw '"' List.mem_cons_self) hrest hrest' h
    cases q with
    | number m => exact absurd m.isWord_chars hq
    | boolean b => exact absurd (isWord_booleanText b) hq
    | string marks' =>
      simp only [Phrase.chars, List.cons_append, List.append_assoc, List.nil_append] at h
      obtain ⟨rfl, hrests⟩ := marks_unique (List.cons.inj h).2
      exact ⟨rfl, hrests⟩
    | empty gap => exact absurd (List.cons.inj h).1 (by decide)
    | vector gap items => exact absurd (List.cons.inj h).1 (by decide)
  | .empty gap, q, rest, rest', hrest, hrest', h => by
    have hq : ¬ IsWord q.chars :=
      Phrase.not_isWord (p := .empty gap) (fun hw => nomatch hw '[' List.mem_cons_self) hrest hrest' h
    cases q with
    | number m => exact absurd m.isWord_chars hq
    | boolean b => exact absurd (isWord_booleanText b) hq
    | string marks => exact absurd (List.cons.inj h).1 (by decide)
    | empty gap' =>
      simp only [Phrase.chars, List.cons_append, List.append_assoc, List.nil_append] at h
      obtain ⟨rfl, -, hrests⟩ := gap_mark_unique (by decide) (by decide) (List.cons.inj h).2
      exact ⟨rfl, hrests⟩
    | vector gap' items =>
      simp only [Phrase.chars, List.cons_append, List.append_assoc, List.nil_append] at h
      obtain ⟨-, hitems⟩ := gap_unique (stopsAt_cons (by decide) _) (items.stopsAt_chars _)
        (List.cons.inj h).2
      exact absurd hitems.symm (items.chars_append_ne _ _)
  | .vector gap items, q, rest, rest', hrest, hrest', h => by
    have hq : ¬ IsWord q.chars :=
      Phrase.not_isWord (p := .vector gap items) (fun hw => nomatch hw '[' List.mem_cons_self) hrest
        hrest' h
    cases q with
    | number m => exact absurd m.isWord_chars hq
    | boolean b => exact absurd (isWord_booleanText b) hq
    | string marks => exact absurd (List.cons.inj h).1 (by decide)
    | empty gap' =>
      simp only [Phrase.chars, List.cons_append, List.append_assoc, List.nil_append] at h
      obtain ⟨-, hitems⟩ := gap_unique (items.stopsAt_chars _) (stopsAt_cons (by decide) _)
        (List.cons.inj h).2
      exact absurd hitems (items.chars_append_ne _ _)
    | vector gap' items' =>
      simp only [Phrase.chars, List.cons_append, List.append_assoc] at h
      obtain ⟨rfl, hitems⟩ :=
        gap_unique (items.stopsAt_chars rest) (items'.stopsAt_chars rest') (List.cons.inj h).2
      obtain ⟨rfl, hrests⟩ := items.chars_append_inj items' hitems
      exact ⟨rfl, hrests⟩

/-- The text of some items determines them, up to the closing bracket. -/
theorem Items.chars_append_inj : ∀ (items items' : Items) {rest rest' : List Char},
    items.chars ++ rest = items'.chars ++ rest' → items = items' ∧ rest = rest'
  | .last item gap, items', rest, rest', h => by
    cases items' with
    | last item' gap' =>
      simp only [Items.chars, List.append_assoc, List.singleton_append] at h
      obtain ⟨rfl, hbehind⟩ := item.chars_append_inj item'
        (stopsAt_gap gap (stopsAt_cons (by decide) _)) (stopsAt_gap gap' (stopsAt_cons (by decide) _)) h
      obtain ⟨rfl, -, hrests⟩ := gap_mark_unique (by decide) (by decide) hbehind
      exact ⟨rfl, hrests⟩
    | more item' before after others =>
      simp only [Items.chars, List.append_assoc, List.cons_append, List.nil_append] at h
      obtain ⟨-, hbehind⟩ := item.chars_append_inj item'
        (stopsAt_gap gap (stopsAt_cons (by decide) _))
        (stopsAt_gap before (stopsAt_cons (by decide) _)) h
      obtain ⟨-, hmark, -⟩ := gap_mark_unique (by decide) (by decide) hbehind
      exact absurd hmark (by decide)
  | .more item before after others, items', rest, rest', h => by
    cases items' with
    | last item' gap =>
      simp only [Items.chars, List.append_assoc, List.cons_append, List.nil_append] at h
      obtain ⟨-, hbehind⟩ := item.chars_append_inj item'
        (stopsAt_gap before (stopsAt_cons (by decide) _))
        (stopsAt_gap gap (stopsAt_cons (by decide) _)) h
      obtain ⟨-, hmark, -⟩ := gap_mark_unique (by decide) (by decide) hbehind
      exact absurd hmark (by decide)
    | more item' before' after' others' =>
      simp only [Items.chars, List.append_assoc, List.cons_append] at h
      obtain ⟨rfl, hbehind⟩ := item.chars_append_inj item'
        (stopsAt_gap before (stopsAt_cons (by decide) _))
        (stopsAt_gap before' (stopsAt_cons (by decide) _)) h
      obtain ⟨rfl, -, hafter⟩ := gap_mark_unique (by decide) (by decide) hbehind
      obtain ⟨rfl, hothers⟩ :=
        gap_unique (others.stopsAt_chars rest) (others'.stopsAt_chars rest') hafter
      obtain ⟨rfl, hrests⟩ := others.chars_append_inj others' hothers
      exact ⟨rfl, hrests⟩

end

/-- **A text has at most one derivation**, down to the white space.  So the grammar is
    unambiguous. -/
theorem Derivation.chars_injective {d e : Derivation} (h : d.chars = e.chars) : d = e := by
  obtain ⟨before, p, after⟩ := d
  obtain ⟨before', q, after'⟩ := e
  obtain ⟨rfl, hphrase⟩ := gap_unique (p.stopsAt_chars after.chars) (q.stopsAt_chars after'.chars) h
  have hends : ∀ g : Gap, StopsAt isOrdinary g.chars := by
    intro g
    have hgap := stopsAt_gap g (stopsAt_nil isOrdinary)
    rwa [List.append_nil] at hgap
  obtain ⟨rfl, hafter⟩ := p.chars_append_inj q (hends after) (hends after') hphrase
  rw [Gap.ext hafter]

/-! ## The reader -/

/-- **The reader of literals accepts exactly the texts with a derivation.**  The derivation is then
    the only one, and the literal that is read is the one it stands for. -/
theorem reads_exactly_derivations (line : Int) (s : String) :
    ((Literal.read? line s).isSome = true ↔ ∃ d : Derivation, d.chars = s.toList) ∧
      ∀ d : Derivation, d.chars = s.toList →
        Literal.read? line s = some (d.literal line) ∧
          ∀ e : Derivation, e.chars = s.toList → e = d := by
  have hread : ∀ d : Derivation, d.chars = s.toList →
      Literal.read? line s = some (d.literal line) := by
    intro d hd
    have h := d.read?_chars line
    rwa [hd, String.ofList_toList] at h
  refine ⟨⟨fun h => ?_, fun ⟨d, hd⟩ => ?_⟩, fun d hd => ⟨hread d hd, fun e he => ?_⟩⟩
  · obtain ⟨l, hl⟩ := Option.isSome_iff_exists.mp h
    exact exists_derivation hl
  · rw [hread d hd]
    rfl
  · exact Derivation.chars_injective (he.trans hd.symm)

/-- The gap of one space. -/
def Gap.space : Gap := ⟨[' '], by decide⟩

/-- A vector of a number that ends in its point and a string that holds a quote. -/
def spacedPair : Derivation where
  before := ⟨['\t'], by decide⟩
  phrase := .vector .space
    (.more (.number ⟨.unsigned, ['5'], some [], none, by decide, by decide, by decide⟩) .space
      ⟨[], by decide⟩ (.last (.string [.escaped '"']) .space))
  after := .space

theorem reads_exactly_derivations_spacedPair :
    spacedPair.chars = "\t[ 5. ,\"\\\"\" ] ".toList ∧
      Literal.read? 3 "\t[ 5. ,\"\\\"\" ] " =
        some (.vector 3 [.number 3 (Decimal.toFloat ⟨5, 0⟩) "5.", .string 3 "\""]) := by
  have hchars : spacedPair.chars = "\t[ 5. ,\"\\\"\" ] ".toList := rfl
  exact ⟨hchars, ((reads_exactly_derivations 3 _).2 spacedPair hchars).1⟩

end SolidExport.Source
