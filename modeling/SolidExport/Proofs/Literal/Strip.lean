/-
  Literals without their white space.

  `strip` takes the white space outside of strings from a text.  The cutter stands behind a text as it
  stands behind what is left of it, but for a word that white space has already ended (`Agrees`).  So
  both are cut into the same tokens, unless white space splits a word (`tokens?_strip`).

  A text in which it does is cut into two words in a row (`exists_words_of_splitsWord`), and no literal
  has those.  So `strip` keeps what a literal means, and the only texts that it makes literals are
  those with a split word (`read?_strip`, `read?_of_splitsWord`).
-/
import SolidExport.Proofs.Params.Segment

namespace SolidExport.Source

open Literal (Token Pending Cutter Assembly)

/-! ## Stripping -/

/-- `kept d c` — what is kept of the character `c` at the depth `d`: all but the white space outside
    of strings. -/
def kept (d : Depth) (c : Char) : List Char := if !d.quoted && Text.isBlank c then [] else [c]

/-- `stripFrom d cs` — what is left of a text that begins at the depth `d`, and so perhaps inside a
    string. -/
def stripFrom (d : Depth) : List Char → List Char
  | [] => []
  | c :: cs => kept d c ++ stripFrom (d.step c) cs

/-- `strip cs` — the text `cs` without the white space outside of strings.  This is what a scanner
    leaves of it. -/
def strip (cs : List Char) : List Char := stripFrom .outside cs

/-- `SplitsWord cs` — white space outside of strings stands between two characters of `cs` that
    would make one word without it. -/
def SplitsWord (cs : List Char) : Prop :=
  ∃ front a gap b back, cs = front ++ a :: (gap ++ b :: back) ∧
    (Depth.after front).quoted = false ∧ gap ≠ [] ∧ (∀ c ∈ gap, Text.isBlank c = true) ∧
    Cutter.endsWord a = false ∧ Cutter.endsWord b = false

/-- An escaped quote and white space in a string, and white space around the other tokens. -/
example : strip "[ 1,\t\" \\\" \" ]".toList = "[1,\" \\\" \"]".toList := by decide

theorem kept_blank {d : Depth} {c : Char} (hd : d.quoted = false) (hc : Text.isBlank c = true) :
    kept d c = [] := by
  simp [kept, hd, hc]

theorem kept_of_not {d : Depth} {c : Char} (h : ¬ (d.quoted = false ∧ Text.isBlank c = true)) :
    kept d c = [c] := by
  unfold kept
  rw [if_neg (by simpa using h)]

theorem stripFrom_append (d : Depth) (cs ds : List Char) :
    stripFrom d (cs ++ ds) = stripFrom d cs ++ stripFrom (cs.foldl Depth.step d) ds := by
  induction cs generalizing d with
  | nil => rfl
  | cons c cs ih =>
    rw [List.cons_append, stripFrom, ih, stripFrom, List.append_assoc]
    rfl

theorem strip_append (cs ds : List Char) :
    strip (cs ++ ds) = strip cs ++ stripFrom (Depth.after cs) ds :=
  stripFrom_append .outside cs ds

theorem strip_snoc (cs : List Char) (c : Char) :
    strip (cs ++ [c]) = strip cs ++ kept (Depth.after cs) c := by
  rw [strip_append]
  simp [stripFrom]

/-- White space outside of strings leaves the depth as it is. -/
theorem step_blank_depth {d : Depth} {c : Char} (hd : d.quoted = false)
    (hc : Text.isBlank c = true) : d.step c = d := by
  have hne : ∀ e : Char, Text.isBlank e = false → c ≠ e := by
    rintro e he rfl
    rw [hc] at he
    exact nomatch he
  simp [Depth.step, hd, hne '"' (by decide), hne '[' (by decide), hne ']' (by decide)]

/-- **What is left of a text ends at the depth of the text**, so brackets and strings are open in
    both alike. -/
theorem after_strip (cs : List Char) : Depth.after (strip cs) = Depth.after cs := by
  induction cs using List.reverseRecOn with
  | nil => rfl
  | append_singleton cs c ih =>
    rw [strip_snoc, Depth.after_snoc]
    by_cases hblank : (Depth.after cs).quoted = false ∧ Text.isBlank c = true
    · rw [kept_blank hblank.1 hblank.2, List.append_nil, ih, step_blank_depth hblank.1 hblank.2]
    · rw [kept_of_not hblank, Depth.after_snoc, ih]

/-! ## Where the cutter stands -/

/-- `cut cs` — the cutter behind the text `cs`, with its last token perhaps still pending. -/
def cut (cs : List Char) : Cutter := cs.foldl Cutter.step ⟨#[], .idle⟩

theorem cut_snoc (cs : List Char) (c : Char) : cut (cs ++ [c]) = (cut cs).step c := by
  unfold cut
  rw [List.foldl_append]
  rfl

/-- `Stands cs p` — what is pending behind the text `cs` fits the depth there: the cutter is in a
    string when the depth is, and in a word only behind a character of it. -/
def Stands (cs : List Char) : Pending → Prop
  | .idle => (Depth.after cs).quoted = false
  | .word _ => ∃ front a, cs = front ++ [a] ∧ (Depth.after front).quoted = false ∧
      Cutter.endsWord a = false
  | .quoted _ escaped => (Depth.after cs).quoted = true ∧ (Depth.after cs).escaped = escaped

/-- A character that ends no word begins one, between tokens. -/
theorem start_solid {ch : Char} (hch : Cutter.endsWord ch = false) (c : Cutter) :
    c.start ch = { c with pending := .word (String.singleton ch) } := by
  simp only [Cutter.endsWord, Bool.or_eq_false_iff, beq_eq_false_iff_ne] at hch
  obtain ⟨⟨⟨⟨hblank, h1⟩, h2⟩, h3⟩, h4⟩ := hch
  unfold Cutter.start
  rw [if_neg (by rw [hblank]; decide)]
  split
  · exact absurd rfl h1
  · exact absurd rfl h2
  · exact absurd rfl h3
  · exact absurd rfl h4
  · rfl

/-- Only a quote goes into a string or out of it. -/
theorem quoted_step {c : Char} (hc : c ≠ '"') (d : Depth) : (d.step c).quoted = d.quoted := by
  unfold Depth.step
  rw [if_neg hc, if_neg hc]
  split
  · split
    · rfl
    · split <;> rfl
  · split
    · rfl
    · split <;> rfl

theorem stands_start {cs : List Char} (h : (Depth.after cs).quoted = false) (c : Cutter) (ch : Char) :
    Stands (cs ++ [ch]) (c.start ch).pending := by
  by_cases hword : Cutter.endsWord ch = false
  · rw [start_solid hword]
    exact ⟨cs, ch, rfl, h, hword⟩
  · by_cases hquote : ch = '"'
    · subst hquote
      show _ ∧ _
      rw [Depth.after_snoc]
      have hescaped := Depth.not_escaped_after cs h
      simp [Depth.step, h, hescaped]
    · have hidle : (c.start ch).pending = .idle := by
        have hends : Cutter.endsWord ch = true := by simpa using hword
        simp only [Cutter.endsWord, Bool.or_eq_true, beq_iff_eq] at hends
        rcases hends with (((hblank | rfl) | rfl) | rfl) | rfl
        · unfold Cutter.start
          rw [if_pos hblank]
        · rfl
        · rfl
        · rfl
        · exact absurd rfl hquote
      rw [hidle]
      show (Depth.after (cs ++ [ch])).quoted = false
      rw [Depth.after_snoc, quoted_step hquote, h]

theorem stands_cut (cs : List Char) : Stands cs (cut cs).pending := by
  induction cs using List.reverseRecOn with
  | nil => rfl
  | append_singleton cs ch ih =>
    rw [cut_snoc]
    generalize cut cs = c at ih
    obtain ⟨tokens, pending⟩ := c
    cases pending with
    | idle => exact stands_start ih _ ch
    | word text =>
      obtain ⟨front, a, rfl, hfront, ha⟩ := ih
      have hquote : a ≠ '"' := by
        rintro rfl
        exact absurd ha (by decide)
      have hquoted : (Depth.after (front ++ [a])).quoted = false := by
        rw [Depth.after_snoc, quoted_step hquote, hfront]
      by_cases hch : Cutter.endsWord ch = true
      · have hstep : Cutter.step ⟨tokens, .word text⟩ ch =
            (Cutter.emit ⟨tokens, .word text⟩ (.word text)).start ch := if_pos hch
        rw [hstep]
        exact stands_start hquoted _ ch
      · have hstep : Cutter.step ⟨tokens, .word text⟩ ch = ⟨tokens, .word (text.push ch)⟩ := if_neg hch
        rw [hstep]
        exact ⟨_, ch, rfl, hquoted, by simpa using hch⟩
    | quoted value escaped =>
      obtain ⟨hquoted, hescaped⟩ := ih
      have hdepth := Depth.after_snoc cs ch
      cases escaped with
      | true =>
        show _ ∧ _
        rw [hdepth]
        simp [Depth.step, hquoted, hescaped]
      | false =>
        by_cases hquote : ch = '"'
        · subst hquote
          show (Depth.after _).quoted = false
          rw [hdepth]
          simp [Depth.step, hquoted, hescaped]
        · by_cases hslash : ch = '\\'
          · subst hslash
            show _ ∧ _
            rw [hdepth]
            simp [Depth.step, hquoted, hescaped]
          · have hstep : Cutter.step ⟨tokens, .quoted value false⟩ ch =
                ⟨tokens, .quoted (value.push ch) false⟩ := by
              simp [Cutter.step, hquote, hslash]
            rw [hstep]
            show _ ∧ _
            rw [hdepth]
            simp [Depth.step, hquoted, hescaped, hquote, hslash]

/-! ## The same tokens -/

/-- A text that splits a word still does so, whatever stands behind. -/
theorem SplitsWord.append {cs : List Char} (h : SplitsWord cs) (ds : List Char) :
    SplitsWord (cs ++ ds) := by
  obtain ⟨front, a, gap, b, back, rfl, hrest⟩ := h
  exact ⟨front, a, gap, b, back ++ ds, by simp, hrest⟩

/-- `Agrees cs c c'` — how the cutter stands behind the text `cs` and behind what is left of it: in
    the same way, or white space at the end of `cs` has ended a word that is still pending without
    it. -/
inductive Agrees (cs : List Char) : Cutter → Cutter → Prop where
  | same (c : Cutter) : Agrees cs c c
  | ended (tokens : Array Token) (word : String) (gap : List Char) {front : List Char} {a : Char}
      (htext : cs = front ++ a :: gap) (hfront : (Depth.after front).quoted = false)
      (ha : Cutter.endsWord a = false) (hgap : ∀ c ∈ gap, Text.isBlank c = true) (hne : gap ≠ []) :
      Agrees cs ⟨tokens.push (.word word), .idle⟩ ⟨tokens, .word word⟩

theorem Agrees.finish_eq {cs : List Char} {c c' : Cutter} (h : Agrees cs c c') :
    c'.finish = c.finish := by
  cases h with
  | same => rfl
  | ended => rfl

/-- **The step lemma.**  The cutters of a text and of what is left of it agree behind one character
    more, as long as no word is split. -/
theorem Agrees.snoc {cs : List Char} (h : Agrees cs (cut cs) (cut (strip cs))) {ch : Char}
    (hsplits : ¬ SplitsWord (cs ++ [ch])) :
    Agrees (cs ++ [ch]) (cut (cs ++ [ch])) (cut (strip (cs ++ [ch]))) := by
  have hstands := stands_cut cs
  rw [strip_snoc, cut_snoc]
  generalize hcut : cut cs = c at h hstands
  generalize hcut' : cut (strip cs) = c' at h
  by_cases hblank : (Depth.after cs).quoted = false ∧ Text.isBlank ch = true
  · -- white space that is dropped: it may only end the pending word
    rw [kept_blank hblank.1 hblank.2, List.append_nil, hcut']
    cases h with
    | same =>
      obtain ⟨tokens, pending⟩ := c
      cases pending with
      | idle =>
        rw [step_blank rfl hblank.2]
        exact .same _
      | word word =>
        obtain ⟨front, a, rfl, hfront, ha⟩ := hstands
        rw [step_blank rfl hblank.2]
        refine .ended tokens word [ch] (by simp) hfront ha ?_ (List.cons_ne_nil ch [])
        intro d hd
        rw [List.mem_singleton.mp hd]
        exact hblank.2
      | quoted value escaped =>
        rw [hstands.1] at hblank
        exact nomatch hblank.1
    | @ended tokens word gap front a htext hfront ha hgap hne =>
      rw [step_blank rfl hblank.2]
      refine .ended tokens word (gap ++ [ch]) (by rw [htext]; simp) hfront ha ?_ (by simp)
      intro d hd
      rcases List.mem_append.mp hd with hd | hd
      · exact hgap d hd
      · rw [List.mem_singleton.mp hd]
        exact hblank.2
  · rw [kept_of_not hblank, cut_snoc, hcut']
    cases h with
    | same => exact .same _
    | @ended tokens word gap front a htext hfront ha hgap hne =>
      -- the next character cannot go on with the word, so it ends the word here too
      have hends : Cutter.endsWord ch = true := by
        by_contra hch
        refine hsplits ⟨front, a, gap, ch, [], by rw [htext]; simp, hfront, hne, hgap, ha, ?_⟩
        simpa using hch
      have hstep : Cutter.step ⟨tokens, .word word⟩ ch =
          Cutter.step ⟨tokens.push (.word word), .idle⟩ ch := if_pos hends
      rw [hstep]
      exact .same _

/-- **A text and what is left of it are cut into the same tokens, unless a word is split.** -/
theorem tokens?_strip {cs : List Char} (h : ¬ SplitsWord cs) :
    Literal.tokens? (strip cs) = Literal.tokens? cs := by
  have hagrees : Agrees cs (cut cs) (cut (strip cs)) := by
    induction cs using List.reverseRecOn with
    | nil => exact .same _
    | append_singleton cs ch ih => exact (ih fun hcs => h (hcs.append [ch])).snoc h
  exact hagrees.finish_eq

/-! ## Split words -/

/-- `Extends c ts` — the tokens `ts` go on from what the cutter `c` has cut, with the pending word
    next. -/
def Extends (c : Cutter) (ts : List Token) : Prop :=
  ∃ more, ts = c.tokens.toList ++ more ∧
    ∀ text, c.pending = .word text → ∃ word rest, more = .word word :: rest

theorem tokens_start (c : Cutter) (ch : Char) :
    ∃ more, (c.start ch).tokens.toList = c.tokens.toList ++ more := by
  unfold Cutter.start
  split
  · exact ⟨[], (List.append_nil _).symm⟩
  · split
    · exact ⟨[.opening], Array.toList_push⟩
    · exact ⟨[.closing], Array.toList_push⟩
    · exact ⟨[.comma], Array.toList_push⟩
    · exact ⟨[], (List.append_nil _).symm⟩
    · exact ⟨[], (List.append_nil _).symm⟩

/-- Tokens that go on from the cutter behind a character go on from the cutter before it. -/
theorem Extends.of_step {c : Cutter} {ch : Char} {ts : List Token} (h : Extends (c.step ch) ts) :
    Extends c ts := by
  obtain ⟨more, rfl, hword⟩ := h
  obtain ⟨tokens, pending⟩ := c
  cases pending with
  | idle =>
    obtain ⟨first, hfirst⟩ := tokens_start ⟨tokens, .idle⟩ ch
    refine ⟨first ++ more, ?_, fun _ h => nomatch h⟩
    rw [← List.append_assoc, ← hfirst]
    rfl
  | word text =>
    by_cases hch : Cutter.endsWord ch = true
    · have hstep : Cutter.step ⟨tokens, .word text⟩ ch =
          Cutter.start ⟨tokens.push (.word text), .idle⟩ ch := if_pos hch
      obtain ⟨first, hfirst⟩ := tokens_start ⟨tokens.push (.word text), .idle⟩ ch
      refine ⟨.word text :: (first ++ more), ?_, fun _ _ => ⟨text, first ++ more, rfl⟩⟩
      rw [hstep, hfirst]
      simp
    · have hstep : Cutter.step ⟨tokens, .word text⟩ ch = ⟨tokens, .word (text.push ch)⟩ := if_neg hch
      rw [hstep] at hword ⊢
      exact ⟨more, rfl, fun _ _ => hword _ rfl⟩
  | quoted value escaped =>
    have htokens : ∃ first, (Cutter.step ⟨tokens, .quoted value escaped⟩ ch).tokens.toList =
        tokens.toList ++ first := by
      cases escaped with
      | true => exact ⟨[], (List.append_nil _).symm⟩
      | false =>
        unfold Cutter.step
        dsimp only
        split
        · exact ⟨[.quoted value], Array.toList_push⟩
        · split
          · exact ⟨[], (List.append_nil _).symm⟩
          · exact ⟨[], (List.append_nil _).symm⟩
    obtain ⟨first, hfirst⟩ := htokens
    refine ⟨first ++ more, ?_, fun _ h => nomatch h⟩
    rw [hfirst, List.append_assoc]

/-- **The tokens at the end go on from those that are cut so far:** none is taken back, and a
    pending word becomes a token of its own. -/
theorem extends_of_finish {cs : List Char} {c : Cutter} {ts : List Token}
    (h : (cs.foldl Cutter.step c).finish = some ts) : Extends c ts := by
  induction cs generalizing c with
  | nil =>
    obtain ⟨tokens, pending⟩ := c
    cases pending with
    | idle =>
      obtain rfl : tokens.toList = ts := Option.some.inj h
      exact ⟨[], (List.append_nil _).symm, fun _ h => nomatch h⟩
    | word text =>
      obtain rfl : (tokens.push (.word text)).toList = ts := Option.some.inj h
      exact ⟨[.word text], Array.toList_push, fun _ _ => ⟨text, [], rfl⟩⟩
    | quoted value escaped => exact nomatch h
  | cons ch cs ih => exact (ih h).of_step

/-- **A text with a split word is cut into two words in a row**, where what is left of it has
    one. -/
theorem exists_words_of_splitsWord {cs : List Char} (h : SplitsWord cs) {ts : List Token}
    (hts : Literal.tokens? cs = some ts) :
    ∃ front a b back, ts = front ++ .word a :: .word b :: back := by
  obtain ⟨front, a, gap, b, back, rfl, hfront, hne, hgap, ha, hb⟩ := h
  obtain ⟨d, ds, rfl⟩ := List.exists_cons_of_ne_nil hne
  have hstands := stands_cut front
  -- behind the first character a word is pending
  have hfirst : ∃ tokens word, (cut front).step a = ⟨tokens, .word word⟩ := by
    generalize cut front = c at hstands
    obtain ⟨tokens, pending⟩ := c
    cases pending with
    | idle => exact ⟨tokens, _, start_solid ha _⟩
    | word text => exact ⟨tokens, text.push a, if_neg (by rw [ha]; decide)⟩
    | quoted value escaped =>
      rw [hstands.1] at hfront
      exact nomatch hfront
  obtain ⟨tokens, word, hword⟩ := hfirst
  have hsecond : (front ++ a :: (d :: ds ++ [b])).foldl Cutter.step ⟨#[], .idle⟩ =
      ⟨tokens.push (.word word), .word (String.singleton b)⟩ := by
    have hds : ds.all Text.isBlank = true :=
      List.all_eq_true.mpr fun e he => hgap e (List.mem_cons_of_mem d he)
    have hblank : Cutter.step ⟨tokens, .word word⟩ d = ⟨tokens.push (.word word), .idle⟩ :=
      step_blank rfl (hgap d List.mem_cons_self)
    have hrest := foldl_gap ⟨ds, hds⟩ (tokens.push (.word word))
    rw [List.foldl_append, List.foldl_cons, List.cons_append, List.foldl_cons, List.foldl_append]
    show List.foldl _ (List.foldl _ (Cutter.step ((cut front).step a) d) ds) [b] = _
    rw [hword, hblank, hrest]
    exact start_solid hb _
  have hcs : front ++ a :: (d :: ds ++ b :: back) = front ++ a :: (d :: ds ++ [b]) ++ back := by simp
  unfold Literal.tokens? at hts
  rw [hcs, List.foldl_append, hsecond] at hts
  obtain ⟨more, rfl, hmore⟩ := extends_of_finish hts
  obtain ⟨next, rest, rfl⟩ := hmore _ rfl
  exact ⟨tokens.toList, word, next, rest, by simp⟩

/-- Behind a word a value is complete, so no second word may follow. -/
theorem step_words (line : Int) (s : Assembly) (a b : String) :
    (Assembly.step line s (.word a)).bind (Assembly.step line · (.word b)) = none := by
  have hbegin : ∀ stack, (Assembly.begin line stack (.word a)).bind
      (Assembly.step line · (.word b)) = none := by
    intro stack
    unfold Assembly.begin
    dsimp only
    cases Literal.ofWord? line a with
    | none => rfl
    | some v => cases stack <;> rfl
  cases s with
  | expecting stack => exact hbegin stack
  | opened stack =>
    cases stack with
    | nil => exact hbegin []
    | cons items stack => exact hbegin (items :: stack)
  | completed done stack => cases stack <;> rfl

/-- Tokens with two words in a row form no literal, whatever stands around them. -/
theorem ofTokens?_words (line : Int) (front : List Token) (a b : String) (back : List Token) :
    Literal.ofTokens? line (front ++ .word a :: .word b :: back) = none := by
  have hrun : ∀ s : Assembly, (.word a :: .word b :: back).foldlM (Assembly.step line) s = none := by
    intro s
    have h := step_words line s a b
    rw [List.foldlM_cons]
    cases hstep : Assembly.step line s (.word a) with
    | none => rfl
    | some s' =>
      have hnone : Assembly.step line s' (.word b) = none := by rwa [hstep] at h
      show List.foldlM (Assembly.step line) s' (.word b :: back) = none
      rw [List.foldlM_cons, hnone]
      rfl
  unfold Literal.ofTokens?
  rw [List.foldlM_append]
  cases front.foldlM (Assembly.step line) (.expecting []) with
  | none => rfl
  | some s =>
    show ((Token.word a :: .word b :: back).foldlM (Assembly.step line) s).bind _ = none
    rw [hrun s]
    rfl

/-! ## Values -/

/-- **A text with a split word is no literal.**  So white space in a word changes what is read. -/
theorem read?_of_splitsWord {cs : List Char} (h : SplitsWord cs) (line : Int) :
    Literal.read? line (String.ofList cs) = none := by
  unfold Literal.read?
  rw [String.toList_ofList]
  cases hts : Literal.tokens? cs with
  | none => rfl
  | some ts =>
    obtain ⟨front, a, b, back, rfl⟩ := exists_words_of_splitsWord h hts
    exact ofTokens?_words line front a b back

/-- **Any other text is the literal that is left of it, or no literal as well.**  White space
    matters in split words only. -/
theorem read?_strip {cs : List Char} (h : ¬ SplitsWord cs) (line : Int) :
    Literal.read? line (String.ofList (strip cs)) = Literal.read? line (String.ofList cs) := by
  unfold Literal.read?
  rw [String.toList_ofList, String.toList_ofList, tokens?_strip h]

end SolidExport.Source
