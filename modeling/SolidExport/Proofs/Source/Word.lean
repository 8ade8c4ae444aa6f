/-
  Words: identifiers, numbers and the two truth values.

  All of them are written with ordinary characters (`isOrdinary`), which no reader gives a meaning
  of its own.  A word is read back as the literal it was written for (`ofWord?_number`,
  `ofWord?_boolean`).
-/
import SolidExport.Proofs.Source.Basic

namespace SolidExport.Source

/-! ## Ordinary characters -/

/-- `isOrdinary c` — whether the character `c` may stand in a word: in a name, a number or a truth
    value.  None of these ends a word, a string or a piece. -/
def isOrdinary (c : Char) : Bool := Signature.continuesTag c || c == '+' || c == '-' || c == '.'

theorem isDigit_iff {c : Char} : isDigit c = true ↔ 48 ≤ c.toNat ∧ c.toNat ≤ 57 := by
  unfold isDigit digitValue?
  dsimp only
  by_cases h : 48 ≤ c.toNat ∧ c.toNat ≤ 57
  · have hlt : c.toNat - 48 < 10 := by omega
    simp [h, hlt]
  · refine iff_of_false ?_ h
    -- the letters of base 16 stand for ten and more
    have h1 : ¬ c.toNat - 87 < 10 ∨ ¬ (97 ≤ c.toNat ∧ c.toNat ≤ 102) := by omega
    have h2 : ¬ c.toNat - 55 < 10 ∨ ¬ (65 ≤ c.toNat ∧ c.toNat ≤ 70) := by omega
    rw [if_neg h]
    split
    · rename_i hlower
      simp [h1.resolve_right (not_not_intro hlower)]
    · split
      · rename_i hupper
        simp [h2.resolve_right (not_not_intro hupper)]
      · simp

/-- The code points where ordinary characters lie.  None of the marks that readers look for is among
    them. -/
theorem toNat_of_isOrdinary {c : Char} (h : isOrdinary c = true) :
    c.toNat = 36 ∨ c.toNat = 43 ∨ c.toNat = 45 ∨ c.toNat = 46 ∨ (48 ≤ c.toNat ∧ c.toNat ≤ 57) ∨
      (65 ≤ c.toNat ∧ c.toNat ≤ 90) ∨ c.toNat = 95 ∨ (97 ≤ c.toNat ∧ c.toNat ≤ 122) := by
  simp only [isOrdinary, Signature.continuesTag, Signature.startsTag, Bool.or_eq_true, beq_iff_eq,
    isDigit_iff] at h
  rcases h with (((((halpha | rfl) | rfl) | h) | rfl) | rfl) | rfl
  · rcases (Bool.or_eq_true _ _).mp halpha with hupper | hlower
    · have hrange : 65 ≤ c.toNat ∧ c.toNat ≤ 90 := of_decide_eq_true hupper
      omega
    · obtain ⟨hleast, hmost⟩ := (Bool.and_eq_true _ _).mp hlower
      have hl : 97 ≤ c.toNat := of_decide_eq_true hleast
      have hu : c.toNat ≤ 122 := of_decide_eq_true hmost
      omega
  · decide
  · decide
  · omega
  · decide
  · decide
  · decide

theorem isBlank_of_isOrdinary {c : Char} (h : isOrdinary c = true) : Text.isBlank c = false := by
  have hn := toNat_of_isOrdinary h
  simp only [Text.isBlank, Bool.or_eq_false_iff, Bool.and_eq_false_iff, decide_eq_false_iff_not,
    beq_eq_false_iff_ne]
  omega

/-- An ordinary character is none of those that are not, so a reader that looks for one of these
    passes it by. -/
theorem ne_of_isOrdinary {c d : Char} (h : isOrdinary c = true) (hd : isOrdinary d = false) :
    c ≠ d := by
  rintro rfl
  rw [h] at hd
  exact nomatch hd

theorem isOrdinary_of_isDigit {c : Char} (h : isDigit c = true) : isOrdinary c = true := by
  simp [isOrdinary, Signature.continuesTag, h]

/-- Characters behind a string that one was pushed to: it may as well be the first of them. -/
theorem push_append (s : String) (c : Char) (cs : List Char) :
    s.push c ++ String.ofList cs = s ++ String.ofList (c :: cs) := by
  rw [← String.toList_inj]
  simp

/-! ## Texts in a row -/

/-- `Closed P` — the class `P` of texts holds every row of its texts.  So a text is of the class if
    each of its tokens is. -/
structure Closed (P : List Char → Prop) : Prop where
  nil : P []
  append : ∀ {cs ds : List Char}, P cs → P ds → P (cs ++ ds)

namespace Closed

variable {P : List Char → Prop}

theorem flatMap (hP : Closed P) {α : Type} {f : α → List Char} {as : List α}
    (h : ∀ a ∈ as, P (f a)) : P (as.flatMap f) := by
  induction as with
  | nil => exact hP.nil
  | cons a as ih =>
    rw [List.flatMap_cons]
    exact hP.append (h a List.mem_cons_self) (ih fun b hb => h b (List.mem_cons_of_mem a hb))

theorem chars (hP : Closed P) {cs : List Char} (h : ∀ c ∈ cs, P [c]) : P cs := by
  have hrow := hP.flatMap h
  rwa [List.flatMap_singleton'] at hrow

theorem listed (hP : Closed P) (hcomma : P [',']) {ts : List (List Char)} (h : ∀ t ∈ ts, P t) :
    P (listed ',' ts) := by
  cases ts with
  | nil => exact hP.nil
  | cons t ts =>
    refine hP.append (h t List.mem_cons_self) (hP.flatMap fun u hu => ?_)
    exact hP.append hcomma (h u (List.mem_cons_of_mem t hu))

end Closed

/-! ## Words -/

/-- `IsWord cs` — the text `cs` has ordinary characters only. -/
def IsWord (cs : List Char) : Prop := ∀ c ∈ cs, isOrdinary c = true

instance (cs : List Char) : Decidable (IsWord cs) :=
  List.decidableBAll (isOrdinary · = true) cs

theorem isWord_append {cs ds : List Char} (hc : IsWord cs) (hd : IsWord ds) : IsWord (cs ++ ds) := by
  intro c h
  rcases List.mem_append.mp h with h | h
  · exact hc c h
  · exact hd c h

theorem isWord_of_digits {cs : List Char} (h : cs.all isDigit = true) : IsWord cs :=
  fun c hc => isOrdinary_of_isDigit (List.all_eq_true.mp h c hc)

theorem Sign.isWord_chars (s : Sign) : IsWord s.chars := by
  cases s <;> decide

theorem Exponent.isWord_chars (e : Exponent) : IsWord e.chars := by
  have hletter : IsWord [if e.capital then 'E' else 'e'] := by
    cases e.capital <;> decide
  exact isWord_append hletter (isWord_append e.sign.isWord_chars (isWord_of_digits e.all_digits))

theorem Numeral.isWord_chars (n : Numeral) : IsWord n.chars := by
  have hfraction : IsWord (n.fraction.elim [] ('.' :: ·)) := by
    have hdigits := isWord_of_digits n.fraction_digits
    cases hf : n.fraction with
    | none => decide
    | some digits =>
      rw [hf] at hdigits
      have hpoint : IsWord ['.'] := by decide
      exact isWord_append hpoint hdigits
  have hexponent : IsWord (n.exponent.elim [] Exponent.chars) := by
    cases n.exponent with
    | none => decide
    | some e => exact e.isWord_chars
  exact isWord_append n.sign.isWord_chars
    (isWord_append (isWord_of_digits n.whole_digits) (isWord_append hfraction hexponent))

theorem isWord_booleanText (b : Bool) : IsWord (Literal.booleanText b).toList := by
  cases b <;> decide

theorem Identifier.isWord_text (i : Identifier) : IsWord i.text.toList := by
  have h := i.isTag
  unfold Signature.isTag at h
  split at h
  · exact nomatch h
  · rename_i c cs htext
    rw [Bool.and_eq_true] at h
    intro d hd
    rw [htext] at hd
    rcases List.mem_cons.mp hd with rfl | hd
    · simp [isOrdinary, Signature.continuesTag, h.1]
    · simp [isOrdinary, List.all_eq_true.mp h.2 d hd]

theorem Identifier.text_cons (i : Identifier) : ∃ c cs, i.text.toList = c :: cs := by
  have h := i.isTag
  unfold Signature.isTag at h
  split at h
  · exact nomatch h
  · rename_i c cs htext
    exact ⟨c, cs, htext⟩

/-! ## Reading numbers -/

/-- A sign is read off the front of a text that begins with none itself. -/
theorem readSign_append (s : Sign) {cs : List Char} (h : ∀ c ∈ cs.head?, c ≠ '+' ∧ c ≠ '-') :
    Decimal.readSign (s.chars ++ cs) = (s.isMinus, cs) := by
  cases s with
  | plus => rfl
  | minus => rfl
  | unsigned =>
    cases cs with
    | nil => rfl
    | cons c cs =>
      obtain ⟨hplus, hminus⟩ := h c rfl
      show Decimal.readSign (c :: cs) = (false, c :: cs)
      unfold Decimal.readSign
      split
      · rename_i heq
        injection heq with heq _
        exact absurd heq hplus
      · rename_i heq
        injection heq with heq _
        exact absurd heq hminus
      · rfl

/-- A text of digits begins with no sign. -/
theorem head_of_digits {cs : List Char} (h : cs.all isDigit = true) :
    ∀ c ∈ cs.head?, c ≠ '+' ∧ c ≠ '-' := by
  intro c hc
  have hdigit := List.all_eq_true.mp h c (List.mem_of_head? hc)
  constructor
  · rintro rfl
    exact absurd hdigit (by decide)
  · rintro rfl
    exact absurd hdigit (by decide)

theorem Exponent.readExponent?_chars (e : Exponent) :
    Decimal.readExponent? e.chars = some e.value := by
  have hletter : (if e.capital then 'E' else 'e') = 'e' ∨ (if e.capital then 'E' else 'e') = 'E' := by
    cases e.capital <;> decide
  unfold chars Decimal.readExponent?
  dsimp only
  rw [if_pos hletter, readSign_append e.sign (head_of_digits e.all_digits)]
  exact if_pos ⟨e.nonempty, e.all_digits⟩

/-- A list is read as long as its items are of the class `p`, up to the first that is not. -/
theorem span_append {α : Type} {p : α → Bool} {cs rest : List α} (hcs : ∀ c ∈ cs, p c = true)
    (hrest : ∀ c ∈ rest.head?, p c = false) :
    (cs ++ rest).takeWhile p = cs ∧ (cs ++ rest).dropWhile p = rest := by
  rw [List.takeWhile_append_of_pos hcs, List.dropWhile_append_of_pos hcs]
  cases rest with
  | nil => exact ⟨List.append_nil _, rfl⟩
  | cons c rest =>
    have hc : ¬ p c = true := by
      rw [hrest c rfl]
      decide
    rw [List.takeWhile_cons_of_neg hc, List.dropWhile_cons_of_neg hc]
    exact ⟨List.append_nil _, rfl⟩

namespace Numeral

/-- The exponent of a numeral, if there is one, is read back.  It begins with no digit and no point,
    so it ends the digits before it. -/
theorem readExponent?_exponent (n : Numeral) :
    Decimal.readExponent? (n.exponent.elim [] Exponent.chars) = some (n.exponent.elim 0 Exponent.value) ∧
      ∀ c ∈ (n.exponent.elim [] Exponent.chars).head?, isDigit c = false ∧ c ≠ '.' := by
  cases n.exponent with
  | none => exact ⟨rfl, fun c hc => nomatch hc⟩
  | some e =>
    refine ⟨e.readExponent?_chars, fun c hc => ?_⟩
    have hletter : (if e.capital then 'E' else 'e') = c := Option.some.inj hc
    subst hletter
    cases e.capital <;> decide

theorem readUnsigned?_chars (n : Numeral) :
    Decimal.readUnsigned? n.unsignedChars = some n.magnitude := by
  obtain ⟨hexponent, hhead⟩ := n.readExponent?_exponent
  have hwhole := List.all_eq_true.mp n.whole_digits
  have hfraction := List.all_eq_true.mp n.fraction_digits
  have hnonempty := n.nonempty
  unfold unsignedChars magnitude Decimal.readUnsigned?
  generalize n.exponent.elim [] Exponent.chars = exponent at hexponent hhead
  cases hf : n.fraction with
  | none =>
    obtain ⟨htake, hdrop⟩ := span_append hwhole fun c hc => (hhead c hc).1
    rw [hf] at hnonempty
    have hsome : ¬ (n.whole = [] ∧ ([] : List Char) = []) := by simpa using hnonempty
    simp only [Option.elim_none, List.nil_append, htake, hdrop]
    -- without a point what follows the digits is the exponent
    split
    · exact absurd rfl (hhead '.' rfl).2
    · rw [if_neg hsome, hexponent]
      rfl
  | some fraction =>
    rw [hf] at hfraction hnonempty
    have hpoint : ∀ c ∈ ('.' :: (fraction ++ exponent)).head?, isDigit c = false := by
      intro c hc
      cases hc
      decide
    obtain ⟨htake, hdrop⟩ := span_append hwhole hpoint
    obtain ⟨htake', hdrop'⟩ := span_append hfraction fun c hc => (hhead c hc).1
    have hsome : ¬ (n.whole = [] ∧ fraction = []) := by
      rintro ⟨hw, hfr⟩
      exact hnonempty.elim (· hw) (· hfr)
    simp only [Option.getD_some] at htake' hdrop'
    simp only [Option.elim_some, List.cons_append, htake, hdrop, htake', hdrop']
    rw [if_neg hsome, hexponent]
    rfl

/-- Without its sign a numeral begins with a digit or with the point. -/
theorem head_unsignedChars (n : Numeral) : ∀ c ∈ n.unsignedChars.head?, c ≠ '+' ∧ c ≠ '-' := by
  unfold unsignedChars
  cases hw : n.whole with
  | cons d ds =>
    have hdigits := n.whole_digits
    rw [hw] at hdigits
    exact fun c hc => head_of_digits hdigits c hc
  | nil =>
    have hnonempty := n.nonempty
    rw [hw] at hnonempty
    cases hf : n.fraction with
    | none =>
      rw [hf] at hnonempty
      exact absurd hnonempty (by decide)
    | some fraction =>
      intro c hc
      cases hc
      decide

/-- The text of a numeral is read back as its number. -/
theorem readFloat?_chars (n : Numeral) : Decimal.readFloat? n.chars = some n.toFloat := by
  unfold Decimal.readFloat? Decimal.read? chars
  rw [readSign_append n.sign n.head_unsignedChars]
  dsimp only
  rw [n.readUnsigned?_chars]
  rfl

/-- A numeral is not written like a text that is read as no number. -/
theorem chars_ne (n : Numeral) {cs : List Char} (h : Decimal.readFloat? cs = none) :
    n.chars ≠ cs := by
  rintro rfl
  rw [n.readFloat?_chars] at h
  exact nomatch h

theorem chars_ne_nil (n : Numeral) : n.chars ≠ [] := n.chars_ne (rfl)

end Numeral

theorem ofWord?_number (line : Int) (n : Numeral) :
    Literal.ofWord? line (String.ofList n.chars) =
      some (.number line n.toFloat (String.ofList n.chars)) := by
  have hne : ∀ word : String, Decimal.readFloat? word.toList = none →
      String.ofList n.chars ≠ word := by
    rintro word h rfl
    rw [String.toList_ofList] at h
    exact n.chars_ne h rfl
  unfold Literal.ofWord?
  rw [if_neg (hne "true" (rfl)), if_neg (hne "false" (rfl)),
    String.toList_ofList, n.readFloat?_chars]
  rfl

theorem ofWord?_boolean (line : Int) (b : Bool) :
    Literal.ofWord? line (Literal.booleanText b) = some (.boolean line b) := by
  cases b <;> rfl

end SolidExport.Source
