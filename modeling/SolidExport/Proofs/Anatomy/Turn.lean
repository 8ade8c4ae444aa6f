/-
  The scanner takes a text piece by piece.

  White space and comments do nothing but count lines, and a chunk is put into the statement or ends
  something (`put`, `put_cases`).  So a text is scanned by putting its tokens, each on the line that
  it stands on (`ending_of_cut`).  In front of something that is never ended no scan succeeds
  (`ending_of_unended`).
-/
import SolidExport.Proofs.Anatomy.Body
import SolidExport.Proofs.Line.Scan

namespace SolidExport

open Anatomy (Cut Token IsUnended ClosesNothing)
open Outcome (bind_ok foldlM_ok foldlM_cons_of_ok foldlM_append_of_ok)
open Source (Mark lineEnds lineEnds_append countLine_eq step_glyph inString)

namespace Scanner

variable {s s' : Scanner} {c : Char}

/-! ## Chunks -/

/-- `s.atLine line` — the scanner `s` moved to another line.  Only the line depends on what is
    skipped between two tokens. -/
def atLine (s : Scanner) (line : Nat) : Scanner := { s with line := line }

/-- `s.put k` — the scanner `s` behind one chunk of plain text, with a string taken as a whole. -/
def put (s : Scanner) : Chunk → Except Halt Scanner
  | .glyph c _ => s.glyph c
  | .string marks =>
    .ok { s.mark with buffer := s.buffer ++ String.ofList (Chunk.string marks).chars }

/-- `s.taken k parens` — the scanner `s` behind a chunk that does not end the statement, with
    `parens` parentheses open. -/
def taken (s : Scanner) (k : Chunk) (parens : Nat) : Scanner :=
  { s with
    parens := parens
    startLine := s.markedLine
    buffer := s.buffer ++ String.ofList k.chars }

theorem push_eq_taken (s : Scanner) (hc : c ≠ '"') (parens : Nat) :
    { s with parens := parens }.push c = s.taken (.glyph c hc) parens := by
  unfold push taken
  dsimp only
  rw [mark_eq, String.push_eq_append]
  rfl

/-- **All that one chunk can do.**  It goes into the statement, or outside parentheses it ends a
    statement, opens a body or closes one. -/
theorem put_cases {k : Chunk} (h : s.put k = .ok s') :
    (∃ parens : Nat, (parens : Int) = s.parens + k.rise ∧ (s.parens = 0 → ¬k.IsEnd) ∧
      s' = s.taken k parens) ∨
    (s.parens = 0 ∧ ∃ c hc, k = .glyph c hc ∧
      ((c = ';' ∧ s' = if s.buffer.isEmpty then s else s.endStatement false) ∨
      (c = '\x7b' ∧ s.buffer ≠ "" ∧ s' = s.endStatement true) ∨
      (c = '\x7d' ∧ s.buffer = "" ∧ ∃ level, s.level = level + 1 ∧ s' = { s with
        level := level
        dropping := if s.dropping = some level then none else s.dropping }))) := by
  cases k with
  | string marks =>
    refine Or.inl ⟨s.parens, (Int.add_zero _).symm, fun _ => id, ?_⟩
    rw [← Except.ok.inj h, mark_eq]
    rfl
  | glyph c hc =>
    change s.glyph c = .ok s' at h
    unfold glyph at h
    split at h
    · rename_i hend
      exact Or.inr ⟨hend.1, c, hc, rfl, Or.inl ⟨hend.2, (Except.ok.inj h).symm⟩⟩
    · rename_i hsemicolon
      split at h
      · rename_i hend
        refine Or.inr ⟨hend.1, c, hc, rfl, Or.inr (Or.inl ⟨hend.2, ?_⟩)⟩
        unfold openBrace at h
        split at h
        · cases h
        · rename_i hbuffer
          exact ⟨ne_empty_of_not_isEmpty hbuffer, (Except.ok.inj h).symm⟩
      · rename_i hopening
        split at h
        · rename_i hend
          refine Or.inr ⟨hend.1, c, hc, rfl, Or.inr (Or.inr ⟨hend.2, ?_⟩)⟩
          unfold closeBrace at h
          split at h
          · rename_i hbuffer
            split at h
            · cases h
            · rename_i level hlevel
              exact ⟨by simpa using hbuffer, level, hlevel, (Except.ok.inj h).symm⟩
          · cases h
        · -- none of the three that end something
          rename_i hclosing
          have hinner : s.parens = 0 → ¬(Chunk.glyph c hc).IsEnd := by
            rintro hparens (hc | hc | hc)
            · exact hsemicolon ⟨hparens, hc⟩
            · exact hopening ⟨hparens, hc⟩
            · exact hclosing ⟨hparens, hc⟩
          split at h
          · rename_i hopen
            refine Or.inl ⟨s.parens + 1, ?_, hinner, ?_⟩
            · simp [Chunk.rise, hopen]
            · rw [← Except.ok.inj h, push_eq_taken]
          · rename_i hopen
            split at h
            · rename_i hclose
              split at h
              · cases h
              · rename_i parens hparens
                refine Or.inl ⟨parens, ?_, hinner, ?_⟩
                · rw [hparens, Chunk.rise, if_neg hopen, if_pos hclose]
                  omega
                · rw [← Except.ok.inj h, push_eq_taken]
            · rename_i hclose
              refine Or.inl ⟨s.parens, ?_, hinner, ?_⟩
              · simp [Chunk.rise, hopen, hclose]
              · rw [← Except.ok.inj h, ← push_eq_taken s hc]

/-- A chunk `k` that neither ends the statement nor closes a parenthesis too many is taken into the
    buffer, and the open parentheses are counted. -/
theorem put_taken {k : Chunk} {parens : Nat} (hparens : (parens : Int) = s.parens + k.rise)
    (hinner : s.parens = 0 → ¬k.IsEnd) : s.put k = .ok (s.taken k parens) := by
  cases k with
  | string marks =>
    obtain rfl : parens = s.parens := by
      have hrise : (parens : Int) = s.parens + 0 := hparens
      omega
    show Except.ok _ = _
    rw [mark_eq]
    rfl
  | glyph c hc =>
    have hsemicolon : ¬(s.parens = 0 ∧ c = ';') := fun h => hinner h.1 (Or.inl h.2)
    have hopening : ¬(s.parens = 0 ∧ c = '\x7b') := fun h => hinner h.1 (Or.inr (Or.inl h.2))
    have hclosing : ¬(s.parens = 0 ∧ c = '\x7d') := fun h => hinner h.1 (Or.inr (Or.inr h.2))
    show s.glyph c = _
    rw [glyph, if_neg hsemicolon, if_neg hopening, if_neg hclosing, ← push_eq_taken s hc]
    rw [Chunk.rise] at hparens
    by_cases hopen : c = '('
    · rw [if_pos hopen] at hparens ⊢
      obtain rfl : parens = s.parens + 1 := by omega
      rfl
    · rw [if_neg hopen] at hparens ⊢
      by_cases hclose : c = ')'
      · rw [if_pos hclose] at hparens ⊢
        obtain hparens' : s.parens = parens + 1 := by omega
        rw [hparens']
      · rw [if_neg hclose] at hparens ⊢
        obtain rfl : parens = s.parens := by omega
        rfl

/-- A chunk changes neither the mode nor the line: both depend on pieces only. -/
theorem put_frame {k : Chunk} (h : s.put k = .ok s') : s'.mode = s.mode ∧ s'.line = s.line := by
  have hend : ∀ opensBody, (s.endStatement opensBody).mode = s.mode ∧
      (s.endStatement opensBody).line = s.line := by
    intro opensBody
    obtain ⟨warnings, dropping, statements, heq, -⟩ := endStatement_cases s opensBody
    rw [heq]
    exact ⟨rfl, rfl⟩
  rcases put_cases h with ⟨parens, -, -, rfl⟩ | ⟨-, c, hc, -, hcases⟩
  · exact ⟨rfl, rfl⟩
  · rcases hcases with ⟨-, rfl⟩ | ⟨-, -, rfl⟩ | ⟨-, -, level, -, rfl⟩
    · split
      · exact ⟨rfl, rfl⟩
      · exact hend false
    · exact hend true
    · exact ⟨rfl, rfl⟩

/-! ## Pieces -/

/-- `s.inMode mode` — the scanner `s` in another mode: inside a string, inside a comment, or in
    neither. -/
def inMode (s : Scanner) (mode : Mode) : Scanner := { s with mode := mode }

/-- `s.ending cs` — what the scanner `s` ends with behind the rest `cs` of the text.  A comment that
    runs to the end of the text counts as closed there. -/
def ending (s : Scanner) (cs : List Char) : Except Halt Scanner := (s.rest cs).map (·.inMode .plain)

theorem ending_of_run {m : Scanner} {cs : List Char} (h : cs.foldlM step s = .ok m)
    (ds : List Char) : s.ending (cs ++ ds) = m.ending ds := by
  unfold ending rest
  rw [foldlM_append_of_ok h]

theorem ending_cons (s : Scanner) (c : Char) (cs : List Char) :
    s.ending (c :: cs) = s.step c >>= (·.ending cs) := by
  unfold ending
  rw [rest_cons]
  cases s.step c with
  | error h => rfl
  | ok m => rfl

/-- A text may end in a line comment, and then ends as it would without. -/
theorem ending_nil (hmode : s.mode = .plain) :
    (s.inMode .lineComment).ending [] = s.ending [] := by
  show (s.inMode .lineComment).close.map _ = s.finish.map _
  rw [finish, hmode]
  show ((if !s.buffer.isEmpty then _ else if s.level ≠ 0 then _ else _) : Except _ _).map _
    = s.close.map _
  unfold close
  split
  · rfl
  · split
    · rfl
    · rfl

theorem step_slash (hmode : s.mode = .plain) : s.step '/' = .ok (s.inMode .slash) := by
  rw [step, hmode]
  rfl

theorem inMode_plain (hmode : s.mode = .plain) : s.inMode .plain = s := by
  rw [inMode, ← hmode]

/-- A line comment is passed over up to the end of its line, which is left to what follows. -/
theorem ending_lineComment (hmode : s.mode = .plain) {body cs : List Char} (hbody : '\n' ∉ body)
    (hends : ∀ d ∈ cs.head?, d = '\n') : s.ending ('/' :: '/' :: body ++ cs) = s.ending cs := by
  have hinside : ∀ body : List Char, '\n' ∉ body →
      body.foldlM step (s.inMode .lineComment) = .ok (s.inMode .lineComment) := by
    intro body
    induction body with
    | nil => exact fun _ => rfl
    | cons c body ih =>
      intro hbody
      have hc : c ≠ '\n' := fun h => hbody (h ▸ List.mem_cons_self)
      have hstep : (s.inMode .lineComment).step c = .ok (s.inMode .lineComment) := if_neg hc
      rw [foldlM_cons_of_ok hstep]
      exact ih fun h => hbody (List.mem_cons_of_mem c h)
  have hopen : ('/' :: '/' :: body).foldlM step s = .ok (s.inMode .lineComment) := by
    have hcomment : (s.inMode .slash).step '/' = .ok (s.inMode .lineComment) := rfl
    rw [foldlM_cons_of_ok (step_slash hmode), foldlM_cons_of_ok hcomment, hinside body hbody]
  rw [ending_of_run hopen]
  cases cs with
  | nil => exact ending_nil hmode
  | cons d cs =>
    -- the end of the line is white space by itself
    obtain rfl : d = '\n' := hends d rfl
    have hstep : (s.inMode .lineComment).step '\n' = s.step '\n' := by
      show Except.ok ((s.inMode .plain).countLine '\n') = _
      rw [inMode_plain hmode, step, hmode]
      rfl
    rw [ending_cons, ending_cons, hstep]

theorem lineEnds_cons (c : Char) (cs : List Char) :
    lineEnds (c :: cs) = lineEnds [c] + lineEnds cs := lineEnds_append [c] cs

/-- Inside a comment that was opened on the line `opened`, characters that do not close it only
    count lines. -/
theorem run_comment (s : Scanner) (opened : Nat) (star : Bool) {body : List Char}
    (h : ClosesNothing (if star then '*' :: body else body)) :
    ∃ star', body.foldlM step (s.inMode (.blockComment opened star))
      = .ok ((s.inMode (.blockComment opened star')).atLine (s.line + lineEnds body)) := by
  induction body generalizing s star with
  | nil => exact ⟨star, rfl⟩
  | cons c body ih =>
    have hopen : (star && c == '/') = false := by
      cases star with
      | false => rfl
      | true =>
        rw [Bool.true_and, beq_eq_false_iff_ne]
        rintro rfl
        exact h ⟨[], body, rfl⟩
    have hstep : (s.inMode (.blockComment opened star)).step c
        = .ok ((s.atLine (s.line + lineEnds [c])).inMode (.blockComment opened (c == '*'))) := by
      show (if (star && c == '/') = true then _ else _) = _
      rw [if_neg (Bool.eq_false_iff.mp hopen), countLine_eq]
      rfl
    have hbody : ClosesNothing (c :: body) := by
      cases star with
      | false => exact h
      | true => exact h.tail
    have hmore : ClosesNothing (if (c == '*') = true then '*' :: body else body) := by
      split
      · rename_i hc
        rwa [← eq_of_beq hc]
      · exact hbody.tail
    obtain ⟨star', hrun⟩ := ih (s.atLine (s.line + lineEnds [c])) (c == '*') hmore
    refine ⟨star', ?_⟩
    rw [foldlM_cons_of_ok hstep, hrun, lineEnds_cons c body, ← Nat.add_assoc]
    rfl

/-- Behind the opening of a comment and a `body` that does not close it, the scanner is in that
    comment, as many lines further as the body has line ends. -/
theorem run_openComment (hmode : s.mode = .plain) {body : List Char} (hbody : ClosesNothing body) :
    ∃ star, ('/' :: '*' :: body).foldlM step s
      = .ok ((s.inMode (.blockComment s.line star)).atLine (s.line + lineEnds body)) := by
  have hcomment : (s.inMode .slash).step '*' = .ok (s.inMode (.blockComment s.line false)) := rfl
  obtain ⟨star, hrun⟩ := run_comment s s.line false hbody
  refine ⟨star, ?_⟩
  rw [foldlM_cons_of_ok (step_slash hmode), foldlM_cons_of_ok hcomment, hrun]

theorem ending_blockComment (hmode : s.mode = .plain) {body : List Char} (hbody : ClosesNothing body)
    (cs : List Char) : s.ending ('/' :: '*' :: (body ++ ['*', '/']) ++ cs)
      = (s.atLine (s.line + lineEnds body)).ending cs := by
  obtain ⟨star, hrun⟩ := run_openComment hmode hbody
  have hstar : ((s.inMode (.blockComment s.line star)).atLine (s.line + lineEnds body)).step '*'
      = .ok ((s.inMode (.blockComment s.line true)).atLine (s.line + lineEnds body)) := by
    cases star with
    | false => rfl
    | true => rfl
  have hclose : ((s.inMode (.blockComment s.line true)).atLine (s.line + lineEnds body)).step '/'
      = .ok (s.atLine (s.line + lineEnds body)) :=
    congrArg (fun m => Except.ok (atLine m (s.line + lineEnds body))) (inMode_plain hmode)
  have hall : ('/' :: '*' :: (body ++ ['*', '/'])).foldlM step s
      = .ok (s.atLine (s.line + lineEnds body)) := by
    rw [← List.cons_append, ← List.cons_append, foldlM_append_of_ok hrun, foldlM_cons_of_ok hstar,
      foldlM_cons_of_ok hclose]
    rfl
  exact ending_of_run hall cs

/-- A slash that opens no comment goes into the statement.  It does so one character late, which
    makes no difference. -/
theorem ending_slash (hmode : s.mode = .plain) {cs : List Char}
    (hends : ∀ d ∈ cs.head?, d ≠ '/' ∧ d ≠ '*') : s.ending ('/' :: cs) = (s.push '/').ending cs := by
  have hlone : (s.inMode .slash).loneSlash = s.push '/' :=
    congrArg (fun m => push m '/') (inMode_plain hmode)
  have hplain : (s.push '/').mode = .plain := by
    unfold push
    rw [mark_eq]
    exact hmode
  rw [ending_cons, step_slash hmode]
  show (s.inMode .slash).ending cs = _
  cases cs with
  | nil =>
    show (s.inMode .slash).loneSlash.close.map _ = (s.push '/').finish.map _
    rw [hlone, finish, hplain]
  | cons d cs =>
    obtain ⟨hd, hd'⟩ := hends d rfl
    have hstep : (s.inMode .slash).step d = (s.push '/').step d := by
      show (if d = '/' then _ else if d = '*' then _ else _) = _
      rw [if_neg hd, if_neg hd', hlone, step, hplain]
    rw [ending_cons, ending_cons, hstep]

theorem lineEnds_glyph (hsolid : Text.isBlank c = false) : lineEnds [c] = 0 := by
  have hc : c ≠ '\n' := by
    rintro rfl
    exact absurd hsolid (by decide)
  simp [lineEnds, hc]

/-- **One turn.**  A piece is taken as a whole: what is kept of it is put, and its lines are
    counted. -/
theorem ending_piece (hmode : s.mode = .plain) {p : Anatomy.Piece} {cs : List Char}
    (hends : p.EndsBefore cs) :
    s.ending (p.chars ++ cs) = p.chunk?.elim (.ok s) s.put >>= fun m =>
      (m.atLine (s.line + lineEnds p.chars)).ending cs := by
  cases p with
  | blank c hc =>
    have hslash : c ≠ '/' := Anatomy.ne_of_isBlank hc (by decide)
    have hquote : c ≠ '"' := Anatomy.ne_of_isBlank hc (by decide)
    have hstep : s.step c = .ok (s.atLine (s.line + lineEnds [c])) := by
      rw [step, hmode]
      show s.plain c = _
      rw [plain, if_neg hquote, if_neg hslash, if_pos hc, countLine_eq]
      rfl
    show s.ending (c :: cs) = _
    rw [ending_cons, hstep]
    rfl
  | lineComment body hbody =>
    have hlines : lineEnds ('/' :: '/' :: body) = 0 := by
      simpa [lineEnds, List.count_eq_zero] using hbody
    show s.ending ('/' :: '/' :: body ++ cs)
      = (s.atLine (s.line + lineEnds ('/' :: '/' :: body))).ending cs
    rw [ending_lineComment hmode hbody hends, hlines]
    rfl
  | blockComment body hbody =>
    have hlines : lineEnds (Anatomy.Piece.blockComment body hbody).chars = lineEnds body := by
      simp [Anatomy.Piece.chars, lineEnds]
    rw [hlines]
    exact ending_blockComment hmode hbody cs
  | glyph c hc hsolid =>
    show s.ending (c :: cs) = s.glyph c >>= fun m => (m.atLine (s.line + lineEnds [c])).ending cs
    rw [lineEnds_glyph hsolid]
    have hline : s.glyph c >>= (fun m => (m.atLine (s.line + 0)).ending cs)
        = s.glyph c >>= (·.ending cs) := by
      cases hput : s.glyph c with
      | error h => rfl
      | ok m =>
        show (m.atLine s.line).ending cs = m.ending cs
        rw [← (put_frame (k := .glyph c hc) hput).2]
        rfl
    rw [hline]
    by_cases hslash : c = '/'
    · subst hslash
      have hglyph : s.glyph '/' = .ok (s.push '/') := by simp [glyph]
      rw [ending_slash hmode (hends rfl), hglyph]
      rfl
    · rw [ending_cons, step_glyph hmode (by simp [hc, hslash, hsolid])]
  | string marks =>
    have hrun := Source.foldlM_string hmode marks
    show s.ending ('"' :: (marks.flatMap Mark.chars ++ ['"']) ++ cs) = _
    rw [ending_of_run hrun]
    show _ = (Scanner.atLine { s.mark with
      buffer := s.buffer ++ String.ofList (Chunk.string marks).chars } _).ending cs
    rw [mark_eq]
    rfl

/-! ## Tokens -/

/-- `putAt line s t` — the scanner `s` behind the token `t`, if `line` gives the line of each
    place. -/
def putAt (line : Nat → Nat) (s : Scanner) (t : Token) : Except Halt Scanner :=
  (s.atLine (line t.start)).put t.chunk

/-- The line that the scanner is on does not matter to the tokens `ts`, since each is put on a line
    of its own, and not to what comes behind either, if that does not read the line. -/
theorem run_atLine {α : Type} (line : Nat → Nat) (s : Scanner) (l : Nat) (ts : List Token)
    {f : Scanner → Except Halt α} (hf : ∀ m : Scanner, f (m.atLine l) = f m) :
    ts.foldlM (putAt line) (s.atLine l) >>= f = ts.foldlM (putAt line) s >>= f := by
  cases ts with
  | nil => exact hf s
  | cons t ts => rfl

/-- **Turn by turn**, a text is scanned by putting the tokens that it begins with, each on its
    line. -/
theorem ending_of_cut {ps : List Anatomy.Piece} {text rest : List Char} (hcut : Cut ps text rest)
    (hmode : s.mode = .plain) (offset : Nat) (line : Nat → Nat)
    (hline : ∀ i, line (offset + i) = s.line + lineEnds (text.take i)) :
    s.ending text = (Anatomy.tokens offset ps).foldlM (putAt line) s >>= fun m =>
      (m.atLine (s.line + lineEnds (ps.flatMap Anatomy.Piece.chars))).ending rest := by
  induction hcut generalizing s offset with
  | nil rest => rfl
  | @cons p ps text rest ends more ih =>
    have hfirst : line offset = s.line := by simpa [lineEnds] using hline 0
    have hlater : ∀ i, line (offset + p.chars.length + i)
        = (s.line + lineEnds p.chars) + lineEnds (text.take i) := by
      intro i
      rw [Nat.add_assoc, hline, List.take_length_add_append, lineEnds_append, Nat.add_assoc]
    -- from the next piece on, whatever was put
    have hrest : ∀ m : Scanner, m.mode = .plain →
        (m.atLine (s.line + lineEnds p.chars)).ending text =
          (Anatomy.tokens (offset + p.chars.length) ps).foldlM (putAt line) m >>= fun m' =>
            (m'.atLine (s.line + lineEnds ((p :: ps).flatMap Anatomy.Piece.chars))).ending rest := by
      intro m hm
      rw [ih (s := m.atLine (s.line + lineEnds p.chars)) hm _ hlater, List.flatMap_cons,
        lineEnds_append, ← Nat.add_assoc]
      exact run_atLine line m _ _ fun _ => rfl
    rw [ending_piece hmode ends, Anatomy.tokens]
    cases p.chunk? with
    | none => exact hrest s hmode
    | some k =>
      have hput : putAt line s ⟨k, offset⟩ = s.put k := by
        unfold putAt
        dsimp only
        rw [hfirst]
        rfl
      show s.put k >>= _ = (Token.mk k offset :: _).foldlM (putAt line) s >>= _
      rw [List.foldlM_cons, hput, bind_assoc]
      cases hk : s.put k with
      | error h => rfl
      | ok m => exact hrest m ((put_frame hk).1.trans hmode)

theorem mode_of_run {line : Nat → Nat} {ts : List Token} (hmode : s.mode = .plain)
    (h : ts.foldlM (putAt line) s = .ok s') : s'.mode = .plain := by
  have hstep : ∀ m t m', t ∈ ts → m.mode = .plain → putAt line m t = .ok m' → m'.mode = .plain :=
    fun m t m' _ hm hput => (put_frame hput).1.trans hm
  exact foldlM_ok hstep hmode h

/-- Behind a quote that is never closed, the scanner is in a string to the end of the text. -/
theorem run_openString (hmode : s.mode = .plain) {text : List Char} {escaped : Bool}
    (h : IsOpenString text escaped) :
    ∃ literal lines, text.foldlM step s = .ok (inString s.mark literal escaped lines) := by
  obtain ⟨marks, rfl⟩ := h
  have hopen : s.step '"' = .ok (inString s.mark "\"" false 0) := by
    rw [step, hmode]
    rfl
  have hmarks := Source.foldlM_marks marks s.mark "\"" 0
  rw [foldlM_cons_of_ok hopen, foldlM_append_of_ok hmarks]
  cases escaped with
  | false => exact ⟨_, _, rfl⟩
  | true => exact ⟨_, _, foldlM_cons_of_ok (Source.step_unescaped s.mark _ _ (by decide)) []⟩

/-- No scan succeeds in front of a string or a comment that is never closed.  So a text that is
    accepted can be cut to its end. -/
theorem ending_of_unended (hmode : s.mode = .plain) {text : List Char} (h : IsUnended text) :
    ∃ halt, s.ending text = .error halt := by
  unfold ending rest
  rcases h with ⟨escaped, hopen⟩ | ⟨body, rfl, hbody⟩
  · obtain ⟨literal, lines, hrun⟩ := run_openString hmode hopen
    rw [hrun]
    exact ⟨_, rfl⟩
  · obtain ⟨star, hrun⟩ := run_openComment hmode hbody
    rw [hrun]
    exact ⟨_, rfl⟩

end Scanner

end SolidExport
