/-
  Disabled statements are as good as white space.

  Each disabled statement covers the text from its first modifier to the semicolon or the brace that
  ends it.  A piece of the text is covered as a whole or not at all (`Whole`), so with blanks in the
  place of what is covered the text has the tokens that are not covered, where they were
  (`Cut.exists_blanked`).  They are the tokens of the body without its disabled statements
  (`Body.tokens_prune`).  So the text gives the same statements as before, and the warnings of the
  text as it was name its disabled statements one by one (`scan_blanks_disabled`).
-/
import SolidExport.Proofs.Anatomy.Scan

namespace SolidExport

open Source (lineEnds)

namespace Anatomy

variable {ps qs : List Piece} {p : Piece} {text : List Char} {covered : Nat → Bool} {offset : Nat}

/-! ## Blanks in the place of characters -/

/-- `blankChar c` — what is put in the place of the character `c`: line ends stay, so that no line
    is renumbered. -/
def blankChar (c : Char) : Char := if c = '\n' then '\n' else ' '

theorem isBlank_blankChar (c : Char) : Text.isBlank (blankChar c) = true := by
  unfold blankChar
  split
  · decide
  · decide

/-- `blankOut covered offset cs` — the text `cs`, which begins at `offset`, with blanks at all
    places that are covered. -/
def blankOut (covered : Nat → Bool) (offset : Nat) : List Char → List Char
  | [] => []
  | c :: cs => (if covered offset then blankChar c else c) :: blankOut covered (offset + 1) cs

theorem blankOut_append (cs ds : List Char) : blankOut covered offset (cs ++ ds)
    = blankOut covered offset cs ++ blankOut covered (offset + cs.length) ds := by
  induction cs generalizing offset with
  | nil => rfl
  | cons c cs ih =>
    rw [List.cons_append, blankOut, blankOut, ih, List.cons_append, List.length_cons,
      Nat.add_assoc, Nat.add_comm 1]

/-- Where `covered` says the same `b` of all characters of `cs`, blanking out is a plain map.  A
    piece is always in this case, since what is covered is whole pieces. -/
theorem blankOut_of_forall {cs : List Char} {b : Bool}
    (h : ∀ i < cs.length, covered (offset + i) = b) :
    blankOut covered offset cs = cs.map fun c => if b then blankChar c else c := by
  induction cs generalizing offset with
  | nil => rfl
  | cons c cs ih =>
    have hhead : covered offset = b := h 0 (Nat.zero_lt_succ _)
    have htail : ∀ i < cs.length, covered (offset + 1 + i) = b := by
      intro i hi
      rw [Nat.add_assoc, Nat.add_comm 1]
      exact h (i + 1) (Nat.succ_lt_succ hi)
    rw [blankOut, ih htail, hhead]
    rfl

/-- Blanking out leaves line ends where they are, so up to any place `n` the two texts have the same
    line. -/
theorem lineEnds_take_blankOut (n : Nat) :
    lineEnds ((blankOut covered offset text).take n) = lineEnds (text.take n) := by
  induction text generalizing offset n with
  | nil => rfl
  | cons c text ih =>
    cases n with
    | zero => rfl
    | succ n =>
      have hchar : (if covered offset then blankChar c else c) = '\n' ↔ c = '\n' := by
        unfold blankChar
        split
        · split
          · simp_all
          · simp_all
        · rfl
      rw [blankOut, List.take_succ_cons, List.take_succ_cons, lineEnds, lineEnds, List.count_cons,
        List.count_cons]
      have hrest : lineEnds ((blankOut covered (offset + 1) text).take n)
          = lineEnds (text.take n) := ih n
      rw [lineEnds, lineEnds] at hrest
      simp only [hrest, beq_iff_eq, hchar]

theorem lineAt_blankOut (i : Nat) : lineAt (blankOut covered offset text) i = lineAt text i :=
  congrArg (1 + ·) (lineEnds_take_blankOut i)

/-! ## Pieces that are covered -/

/-- `Whole covered offset ps` — each of the pieces `ps`, the first of which begins at `offset`, is
    covered as a whole or not at all.  Then blanks in covered places cut no piece in two. -/
def Whole (covered : Nat → Bool) : Nat → List Piece → Prop
  | _, [] => True
  | offset, p :: ps => (∀ i < p.chars.length, covered (offset + i) = covered offset) ∧
      Whole covered (offset + p.chars.length) ps

/-- If the piece `p` ends in front of `text`, it does so when parts of `text` are blanked out:
    blanks open and close no comment, and a line ends where it did. -/
theorem Piece.EndsBefore.blankOut (h : p.EndsBefore text) :
    p.EndsBefore (blankOut covered offset text) := by
  cases text with
  | nil => exact h
  | cons c text =>
    cases p with
    | glyph d free solid =>
      intro hd e he
      obtain rfl := Option.some.inj he
      have hc := h hd c rfl
      unfold blankChar
      split
      · split
        · decide
        · decide
      · exact hc
    | lineComment body oneLine =>
      intro e he
      obtain rfl := Option.some.inj he
      have hc : c = '\n' := h c rfl
      subst hc
      exact ite_self _
    | blank | blockComment | string => trivial

/-- **The tokens that are not covered are left,** where they were: the blanked text is cut into
    other pieces, but what is covered becomes white space, which is no token. -/
theorem Cut.exists_blanked (h : Cut ps text []) (hwhole : Whole covered offset ps) :
    ∃ qs, Cut qs (blankOut covered offset text) [] ∧
      tokens offset qs = (tokens offset ps).filter fun t => !covered t.start := by
  induction ps generalizing text offset with
  | nil =>
    cases h
    exact ⟨[], .nil [], rfl⟩
  | cons p ps ih =>
    cases h with
    | @cons _ _ text _ ends more =>
      obtain ⟨qs, hqs, htokens⟩ := ih more hwhole.2
      have hchars := blankOut_of_forall hwhole.1
      rw [blankOut_append, hchars, tokens, List.filter_append, ← htokens]
      cases hcovered : covered offset with
      | true =>
        have hblank : ∀ c ∈ p.chars.map blankChar, Text.isBlank c = true := by
          intro c hc
          obtain ⟨d, -, rfl⟩ := List.mem_map.mp hc
          exact isBlank_blankChar d
        obtain ⟨ws, hws, hnone⟩ :=
          exists_blanks hblank (blankOut covered (offset + p.chars.length) text)
        have hlength := congrArg List.length (List.append_cancel_right hws.text_eq)
        rw [List.length_map] at hlength
        refine ⟨ws ++ qs, hws.append hqs, ?_⟩
        rw [tokens_append, hnone, ← hlength]
        cases p.chunk? with
        | none => rfl
        | some k => simp [hcovered]
      | false =>
        refine ⟨p :: qs, ?_, ?_⟩
        · rw [List.map_congr_left fun c _ => if_neg Bool.false_ne_true, List.map_id']
          exact .cons ends.blankOut hqs
        · rw [tokens]
          cases p.chunk? with
          | none => rfl
          | some k => simp [hcovered]

/-! ## What disabled statements cover -/

def Extent.covers (e : Extent) (i : Nat) : Bool := decide (e.phrase.start ≤ i ∧ i ≤ e.last)

/-- `covers es i` — whether the place `i` is covered by one of the statements `es`. -/
def covers (es : List Extent) (i : Nat) : Bool := es.any (·.covers i)

theorem covers_append (es fs : List Extent) (i : Nat) :
    covers (es ++ fs) i = (covers es i || covers fs i) := List.any_append

/-- `a.blanked` — the text with blanks in the place of its disabled statements. -/
def blanked (a : Anatomy text) : List Char := blankOut (covers a.disabled) 0 text

/-- `e.Spans ts` — the statement `e` begins with one of the tokens `ts`, and ends with one of a
    single character, so that it covers whole tokens. -/
structure Extent.Spans (e : Extent) (ts : List Token) : Prop where
  first : ∃ t ∈ ts, t.start = e.phrase.start
  last : ∃ t ∈ ts, t.start = e.last ∧ t.chunk.chars.length = 1

theorem Extent.Spans.mono {e : Extent} {ts us : List Token} (h : e.Spans ts) (hsub : ts ⊆ us) :
    e.Spans us := by
  obtain ⟨⟨t, ht, hstart⟩, u, hu, hlast⟩ := h
  exact ⟨⟨t, hsub ht, hstart⟩, u, hsub hu, hlast⟩

/-- The extent of a statement spans its tokens, from the first of `phrase` to the one character
    `last` that ends it, with a body `mid` between them or none. -/
theorem spans_statement (phrase : Phrase) (mid : List Token) (last : Token)
    (hone : last.chunk.chars.length = 1) :
    (⟨phrase, last.start⟩ : Extent).Spans (phrase.tokens ++ (mid ++ [last])) := by
  refine ⟨⟨_, List.mem_append_left _ (List.head_mem phrase.nonempty), rfl⟩, last, ?_, rfl, hone⟩
  simp

theorem Body.tokens_leaf (phrase : Phrase) (place : Nat) (rest : Body) :
    (leaf phrase place rest).tokens
      = (phrase.tokens ++ ([] ++ [.semicolon place])) ++ rest.tokens := by
  simp [tokens]

theorem Body.tokens_block (phrase : Phrase) (opening : Nat) (inner : Body) (closing : Nat)
    (rest : Body) : (block phrase opening inner closing rest).tokens
      = (phrase.tokens ++ ((.openBrace opening :: inner.tokens) ++ [.closeBrace closing]))
        ++ rest.tokens := by
  simp [tokens]

theorem Body.spans_of_disabled {b : Body} {e : Extent} (he : e ∈ b.disabled) :
    e.Spans b.tokens := by
  induction b with
  | done => exact absurd he List.not_mem_nil
  | semicolon place rest ih => exact (ih he).mono (List.subset_cons_self _ _)
  | leaf phrase place rest ih =>
    rw [tokens_leaf]
    rcases List.mem_append.mp he with he | he
    · split at he
      · obtain rfl := List.mem_singleton.mp he
        exact (spans_statement phrase [] (.semicolon place) rfl).mono (List.subset_append_left _ _)
      · exact absurd he List.not_mem_nil
    · exact (ih he).mono (List.subset_append_right _ _)
  | block phrase opening inner closing rest ihInner ih =>
    rw [tokens_block]
    rcases List.mem_append.mp he with he | he
    · split at he
      · obtain rfl := List.mem_singleton.mp he
        exact (spans_statement phrase _ (.closeBrace closing) rfl).mono (List.subset_append_left _ _)
      · refine (ihInner he).mono fun t ht => ?_
        simp [ht]
    · exact (ih he).mono (List.subset_append_right _ _)

/-- No piece lies across a `place` where a token begins or ends, so that covering all from there on
    covers whole pieces. -/
theorem whole_from {place : Nat} (h : place ≤ offset ∨ ∃ t ∈ tokens offset ps,
      place = t.start ∨ place = t.start + t.chunk.chars.length) :
    Whole (fun i => decide (place ≤ i)) offset ps := by
  induction ps generalizing offset with
  | nil => trivial
  | cons p ps ih =>
    have hcases : place ≤ offset ∨ offset + p.chars.length ≤ place ∧
        (place ≤ offset + p.chars.length ∨ ∃ t ∈ tokens (offset + p.chars.length) ps,
          place = t.start ∨ place = t.start + t.chunk.chars.length) := by
      rcases h with h | ⟨t, ht, hplace⟩
      · exact .inl h
      · rcases List.mem_append.mp ht with ht | ht
        · rw [Option.mem_toList, Option.map_eq_some_iff] at ht
          obtain ⟨k, hk, rfl⟩ := ht
          rw [← Piece.chars_of_chunk hk] at hplace
          dsimp only at hplace
          omega
        · have hstart := (start_of_mem_tokens ht).1
          exact .inr ⟨by omega, .inr ⟨t, ht, hplace⟩⟩
    rcases hcases with hle | ⟨hge, hrest⟩
    · refine ⟨fun i _ => decide_eq_decide.mpr ?_, ih (.inl (by omega))⟩
      exact iff_of_true (Nat.le_add_right_of_le hle) hle
    · refine ⟨fun i hi => decide_eq_decide.mpr ?_, ih hrest⟩
      exact iff_of_false (by omega) (by omega)

theorem Whole.map₂ {covered' : Nat → Bool} (f : Bool → Bool → Bool) (h : Whole covered offset ps)
    (h' : Whole covered' offset ps) : Whole (fun i => f (covered i) (covered' i)) offset ps := by
  induction ps generalizing offset with
  | nil => trivial
  | cons p ps ih =>
    refine ⟨fun i hi => ?_, ih h.2 h'.2⟩
    dsimp only
    rw [h.1 i hi, h'.1 i hi]

theorem Extent.Spans.whole {e : Extent} (h : e.Spans (tokens offset ps)) :
    Whole e.covers offset ps := by
  obtain ⟨⟨t, ht, hstart⟩, u, hu, hlast, hone⟩ := h
  have hfrom : Whole (fun i => decide (e.phrase.start ≤ i)) offset ps :=
    whole_from (.inr ⟨t, ht, .inl hstart.symm⟩)
  have hbehind : Whole (fun i => decide (e.last + 1 ≤ i)) offset ps :=
    whole_from (.inr ⟨u, hu, .inr (by rw [hlast, hone])⟩)
  have hcovers : e.covers
      = fun i => decide (e.phrase.start ≤ i) && !decide (e.last + 1 ≤ i) := by
    funext i
    rw [Extent.covers, Bool.decide_and, ← decide_not]
    congr 2
    exact propext (by omega)
  rw [hcovers]
  exact hfrom.map₂ (fun a b => a && !b) hbehind

theorem whole_covers {es : List Extent} (h : ∀ e ∈ es, e.Spans (tokens offset ps)) :
    Whole (covers es) offset ps := by
  induction es with
  | nil =>
    have hnone : Whole (fun i => decide (offset ≤ i)) offset ps :=
      whole_from (.inl (Nat.le_refl offset))
    exact hnone.map₂ (fun _ _ => false) hnone
  | cons e es ih =>
    have hhead := (h e List.mem_cons_self).whole
    have htail := ih fun f hf => h f (List.mem_cons_of_mem e hf)
    exact hhead.map₂ (fun a b => a || b) htail

/-! ## A body without its disabled statements -/

namespace Body

def prune : Body → Body
  | .done => .done
  | .semicolon place rest => .semicolon place rest.prune
  | .leaf phrase place rest =>
    if phrase.isDisabled then rest.prune else .leaf phrase place rest.prune
  | .block phrase opening inner closing rest =>
    if phrase.isDisabled then rest.prune
    else .block phrase opening inner.prune closing rest.prune

theorem kept_prune (b : Body) (level : Nat) : b.prune.kept level = b.kept level := by
  induction b generalizing level with
  | done => rfl
  | semicolon place rest ih => exact ih level
  | leaf phrase place rest ih =>
    by_cases hdisabled : phrase.isDisabled = true
    · simp [prune, kept, hdisabled, ih]
    · simp [prune, kept, hdisabled, ih]
  | block phrase opening inner closing rest ihInner ih =>
    by_cases hdisabled : phrase.isDisabled = true
    · simp [prune, kept, hdisabled, ih]
    · simp [prune, kept, hdisabled, ih, ihInner]

end Body

/-- `uncovered es ts` — those of the tokens `ts` that the statements `es` do not cover. -/
def uncovered (es : List Extent) (ts : List Token) : List Token :=
  ts.filter fun t => !covers es t.start

theorem uncovered_nil (ts : List Token) : uncovered [] ts = ts :=
  List.filter_eq_self.mpr fun _ _ => rfl

/-- What stands in one part of the tokens covers nothing of the other: extents that span `us` and
    `vs` may be taken off one part at a time. -/
theorem uncovered_append {es fs : List Extent} {us vs : List Token}
    (hsorted : (us ++ vs).Pairwise fun a b => a.start < b.start)
    (hes : ∀ e ∈ es, e.Spans us) (hfs : ∀ e ∈ fs, e.Spans vs) :
    uncovered (es ++ fs) (us ++ vs) = uncovered es us ++ uncovered fs vs := by
  have horder := (List.pairwise_append.mp hsorted).2.2
  unfold uncovered
  rw [List.filter_append]
  congr 1
  · refine List.filter_congr fun u hu => ?_
    have hnone : covers fs u.start = false := by
      refine List.any_eq_false.mpr fun e he hcovers => ?_
      obtain ⟨v, hv, hstart⟩ := (hfs e he).first
      have hlt := horder u hu v hv
      have hle := (of_decide_eq_true hcovers).1
      omega
    rw [covers_append, hnone, Bool.or_false]
  · refine List.filter_congr fun v hv => ?_
    have hnone : covers es v.start = false := by
      refine List.any_eq_false.mpr fun e he hcovers => ?_
      obtain ⟨u, hu, hlast, -⟩ := (hes e he).last
      have hlt := horder u hu v hv
      have hle := (of_decide_eq_true hcovers).2
      omega
    rw [covers_append, hnone, Bool.false_or]

/-- Tokens `us` in front of all that is covered are left as they are. -/
theorem uncovered_append_right {es : List Extent} (us : List Token) {vs : List Token}
    (hsorted : (us ++ vs).Pairwise fun a b => a.start < b.start) (hes : ∀ e ∈ es, e.Spans vs) :
    uncovered es (us ++ vs) = us ++ uncovered es vs := by
  have hnone : ∀ e ∈ ([] : List Extent), e.Spans us := fun e he => absurd he List.not_mem_nil
  have hsplit := uncovered_append hsorted hnone hes
  rwa [uncovered_nil] at hsplit

/-- The extent of a statement covers all its tokens, those of its body included, so nothing is left
    of it. -/
theorem uncovered_statement (phrase : Phrase) (mid : List Token) (last : Token)
    (hsorted : (phrase.tokens ++ (mid ++ [last])).Pairwise fun a b => a.start < b.start) :
    uncovered [⟨phrase, last.start⟩] (phrase.tokens ++ (mid ++ [last])) = [] := by
  refine List.filter_eq_nil_iff.mpr fun t ht => ?_
  have hfirst : phrase.start ≤ t.start := by
    obtain ⟨u, us, hus⟩ := List.exists_cons_of_ne_nil phrase.nonempty
    have hstart := Phrase.start_eq hus
    rw [hus, List.cons_append] at hsorted ht
    rcases List.mem_cons.mp ht with rfl | ht
    · exact Nat.le_of_eq hstart
    · have hlt := (List.pairwise_cons.mp hsorted).1 t ht
      omega
  have hlast : t.start ≤ last.start := by
    rw [← List.append_assoc] at hsorted ht
    rcases List.mem_append.mp ht with ht | ht
    · exact Nat.le_of_lt ((List.pairwise_append.mp hsorted).2.2 t ht last List.mem_cons_self)
    · exact Nat.le_of_eq (congrArg Token.start (List.mem_singleton.mp ht))
  simp [covers, Extent.covers, hfirst, hlast]

/-- A disabled statement leaves nothing of its own, and all that is left of what follows it. -/
theorem uncovered_cons {phrase : Phrase} {mid ts : List Token} {last : Token} {es : List Extent}
    (hsorted : ((phrase.tokens ++ (mid ++ [last])) ++ ts).Pairwise fun a b => a.start < b.start)
    (hone : last.chunk.chars.length = 1) (hes : ∀ e ∈ es, e.Spans ts) :
    uncovered (⟨phrase, last.start⟩ :: es) ((phrase.tokens ++ (mid ++ [last])) ++ ts)
      = uncovered es ts := by
  have hspans : ∀ e ∈ [(⟨phrase, last.start⟩ : Extent)],
      e.Spans (phrase.tokens ++ (mid ++ [last])) := by
    intro e he
    exact List.mem_singleton.mp he ▸ spans_statement phrase mid last hone
  have hsplit := uncovered_append hsorted hspans hes
  rw [uncovered_statement phrase mid last (List.pairwise_append.mp hsorted).1] at hsplit
  exact hsplit

/-- **Without its disabled statements, a body has the tokens that these do not cover.** -/
theorem Body.tokens_prune {b : Body} (hsorted : b.tokens.Pairwise fun a b => a.start < b.start) :
    b.prune.tokens = uncovered b.disabled b.tokens := by
  induction b with
  | done => rfl
  | semicolon place rest ih =>
    rw [prune, tokens, ih hsorted.of_cons]
    exact (uncovered_append_right [.semicolon place] hsorted fun e he => spans_of_disabled he).symm
  | leaf phrase place rest ih =>
    rw [tokens_leaf] at hsorted ⊢
    have hrest := ih (List.pairwise_append.mp hsorted).2.1
    by_cases hdisabled : phrase.isDisabled = true
    · rw [prune, disabled, if_pos hdisabled, if_pos hdisabled, hrest]
      exact (uncovered_cons hsorted rfl fun e he => spans_of_disabled he).symm
    · rw [prune, disabled, if_neg hdisabled, if_neg hdisabled, List.nil_append,
        uncovered_append_right _ hsorted fun e he => spans_of_disabled he, ← hrest]
      simp [tokens]
  | block phrase opening inner closing rest ihInner ih =>
    by_cases hdisabled : phrase.isDisabled = true
    · rw [tokens_block] at hsorted ⊢
      rw [prune, disabled, if_pos hdisabled, if_pos hdisabled,
        ih (List.pairwise_append.mp hsorted).2.1]
      exact (uncovered_cons hsorted rfl fun e he => spans_of_disabled he).symm
    · have htokens : (block phrase opening inner closing rest).tokens
          = (phrase.tokens ++ [.openBrace opening])
            ++ (inner.tokens ++ ([.closeBrace closing] ++ rest.tokens)) := by simp [tokens]
      rw [htokens] at hsorted ⊢
      have hinside := (List.pairwise_append.mp hsorted).2.1
      obtain ⟨hinner, hbehind, -⟩ := List.pairwise_append.mp hinside
      have hspans : ∀ e ∈ rest.disabled, e.Spans ([.closeBrace closing] ++ rest.tokens) :=
        fun e he => (spans_of_disabled he).mono (List.subset_append_right _ _)
      have hall : ∀ e ∈ inner.disabled ++ rest.disabled,
          e.Spans (inner.tokens ++ ([.closeBrace closing] ++ rest.tokens)) := by
        intro e he
        rcases List.mem_append.mp he with he | he
        · exact (spans_of_disabled he).mono (List.subset_append_left _ _)
        · exact (hspans e he).mono (List.subset_append_right _ _)
      rw [prune, disabled, if_neg hdisabled, if_neg hdisabled,
        uncovered_append_right _ hsorted hall,
        uncovered_append hinside (fun e he => spans_of_disabled he) hspans,
        uncovered_append_right _ hbehind fun e he => spans_of_disabled he, ← ihInner hinner,
        ← ih (List.pairwise_append.mp hbehind).2.1]
      simp [tokens]

end Anatomy

namespace Statement

open Anatomy (Extent lineAt)

/-- **Disabled statements are as good as white space.**  A text that is accepted has an anatomy.  With
    blanks in the place of its disabled statements, and line ends left alone, it gives the same
    statements, with their levels and lines.  The warnings about disabled statements are one for
    each, in order, with the line of its first character. -/
theorem scan_blanks_disabled {text : String} {ss : List Statement}
    (h : (scan text).result = .ok ss) :
    Nonempty (Anatomy text.toList) ∧
    ∀ a : Anatomy text.toList,
      (scan (String.ofList a.blanked)).result = .ok ss ∧
      (scan text).warnings.filter Warning.isDrop = a.disabled.map fun e =>
        .disabledStatement (1 + Source.lineEnds (text.toList.take e.phrase.start))
          e.phrase.signature := by
  refine ⟨exists_anatomy h, fun a => ?_⟩
  obtain ⟨hkept, hwarnings⟩ := scan_of_anatomy a
  refine ⟨?_, hwarnings⟩
  have hspans : ∀ e ∈ a.disabled, e.Spans (Anatomy.tokens 0 a.pieces) :=
    fun e he => a.tokens_eq ▸ Anatomy.Body.spans_of_disabled he
  obtain ⟨qs, hqs, htokens⟩ := a.cut.exists_blanked (Anatomy.whole_covers hspans)
  have hsorted : a.body.tokens.Pairwise fun t u => t.start < u.start :=
    a.tokens_eq ▸ Anatomy.tokens_sorted 0 a.pieces
  have hpruned : Anatomy.tokens 0 qs = a.body.prune.tokens.map (Anatomy.Token.move id) := by
    rw [Anatomy.Body.tokens_prune hsorted, htokens, ← a.tokens_eq]
    exact (List.map_id _).symm
  have hcut : Anatomy.Cut qs (String.ofList a.blanked).toList [] := by
    rw [String.toList_ofList]
    exact hqs
  have hline : lineAt (String.ofList a.blanked).toList ∘ id = lineAt text.toList := by
    funext i
    rw [String.toList_ofList]
    exact Anatomy.lineAt_blankOut i
  rw [(scan_of_body hcut hpruned).1, Anatomy.Body.kept_prune, hline]
  exact hkept.symm.trans h

/-- A disabled statement in a live one, with another in its body and braces in a string and in a
    comment. -/
def nestedDisabled : String := "a\x7b\n!*b(\"\x7d\")\x7b%c;/*\x7d*/\n\x7dd;\x7d%e;"

theorem scan_blanks_disabled_nested :
    (scan nestedDisabled).result = .ok [⟨"a", 0, 1⟩, ⟨"d", 1, 3⟩] ∧
    Nonempty (Anatomy nestedDisabled.toList) ∧
    ∀ a : Anatomy nestedDisabled.toList,
      (scan (String.ofList a.blanked)).result = .ok [⟨"a", 0, 1⟩, ⟨"d", 1, 3⟩] ∧
      a.disabled.map (fun e => Warning.disabledStatement
        (1 + Source.lineEnds (nestedDisabled.toList.take e.phrase.start)) e.phrase.signature)
        = [.disabledStatement 2 "b(\"\x7d\")", .disabledStatement 3 "e"] := by
  have hscan : (scan nestedDisabled).result = .ok [⟨"a", 0, 1⟩, ⟨"d", 1, 3⟩] := by rfl
  have hwarnings : (scan nestedDisabled).warnings.filter Warning.isDrop
      = [.disabledStatement 2 "b(\"\x7d\")", .disabledStatement 3 "e"] := by decide +kernel
  obtain ⟨hanatomy, hblanked⟩ := scan_blanks_disabled hscan
  refine ⟨hscan, hanatomy, fun a => ⟨(hblanked a).1, ?_⟩⟩
  exact (hblanked a).2.symm.trans hwarnings

end Statement

end SolidExport
