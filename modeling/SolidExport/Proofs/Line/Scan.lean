/-
  Scanning one text behind another.

  `raise k` moves something down by `k` lines.  A scanner that has taken a text and a line end is, but
  for the line numbers and for what it has gathered, a scanner before its first character.  It stays
  behind such a one with every character (`step_behind`), so the scan of the second text is the one it
  has by itself, with its lines raised (`scan_concat`).

  The one thing that differs is the line that the buffer began on, which is left over from the last
  statement.  It does not matter while the buffer is empty, and is forgotten here (`Scanner.forget`).
-/
import SolidExport.Proofs.Statement

namespace SolidExport

/-! ## Other lines -/

def Location.raise (k : Nat) (l : Location) : Location := { l with line := l.line + k }

def Fault.raise (k : Nat) (f : Fault) : Fault := { f with location := f.location.map (·.raise k) }

def Warning.raise (k : Nat) : Warning → Warning
  | .ignoredModifier line => .ignoredModifier (line + k)
  | .disabledStatement line signature => .disabledStatement (line + k) signature
  | .emptyShape line tag => .emptyShape (line + k) tag

def Statement.raise (k : Nat) (s : Statement) : Statement := { s with line := s.line + k }

def Mode.raise (k : Nat) : Mode → Mode
  | .blockComment opened star => .blockComment (opened + k) star
  | mode => mode

/-- No parenthesis is open in an empty text, so none is where the scanner has just ended a
    statement. -/
theorem LeavesOpen.eq_zero {count : Nat} (h : LeavesOpen [] count) : count = 0 := by
  obtain ⟨chunks, hchunks, -, hdepth⟩ := h
  cases chunks with
  | nil =>
    have hzero : (0 : Int) = count := hdepth
    omega
  | cons chunk chunks =>
    cases chunk with
    | glyph c hc => exact nomatch hchunks
    | string marks => exact nomatch hchunks

namespace Scanner

/-- `s.behind front k` — the scanner `s` as it would be if it had begun where `front` has ended,
    behind a text with `k` line ends: its lines are `k` more, and what `front` recorded stands
    before its own. -/
def behind (s front : Scanner) (k : Nat) : Scanner where
  mode := s.mode.raise k
  line := s.line + k
  level := s.level
  parens := s.parens
  buffer := s.buffer
  startLine := s.startLine + k
  dropping := s.dropping
  statements := front.statements ++ s.statements.map (·.raise k)
  warnings := front.warnings ++ s.warnings.map (·.raise k)

/-- `follow front k r` — the result `r` of a scan as it is behind a text with `k` line ends that
    `front` has read. -/
def follow (front : Scanner) (k : Nat) : Except Halt Scanner → Except Halt Scanner
  | .ok s => .ok (s.behind front k)
  | .error h => .error ⟨h.fault.raise k, front.warnings ++ h.warnings.map (·.raise k)⟩

section

variable (s front : Scanner) (k : Nat) (c : Char)

theorem mark_behind : (s.behind front k).mark = s.mark.behind front k := by
  unfold mark
  show (if s.buffer.isEmpty then _ else _) = _
  split
  · rfl
  · rfl

theorem push_behind : (s.behind front k).push c = (s.push c).behind front k := by
  unfold push
  dsimp only
  rw [mark_behind]
  rfl

theorem endStatement_behind (opensBody : Bool) :
    (s.behind front k).endStatement opensBody = (s.endStatement opensBody).behind front k := by
  obtain ⟨mode, line, level, parens, buffer, startLine, dropping, statements, warnings⟩ := s
  unfold endStatement behind
  cases dropping with
  | some j =>
    cases opensBody <;> simp [Warning.raise]
  | none =>
    dsimp only
    cases (buffer.toList.takeWhile isModifier).any disables with
    | true => cases opensBody <;> simp [Warning.raise]
    | false => cases opensBody <;> simp [Warning.raise, Statement.raise]

theorem halt_behind (cause : Cause) (line : Nat) (statement : String) :
    (s.behind front k).halt cause (line + k) statement = follow front k (s.halt cause line statement) :=
  rfl

theorem semicolon_behind : (s.behind front k).semicolon = follow front k s.semicolon := by
  unfold semicolon
  show Except.ok (if s.buffer.isEmpty then _ else _) = _
  split
  · rfl
  · rw [endStatement_behind]
    rfl

theorem openBrace_behind : (s.behind front k).openBrace = follow front k s.openBrace := by
  unfold openBrace
  show (if s.buffer.isEmpty then _ else _) = _
  split
  · exact halt_behind s front k _ s.line _
  · rw [endStatement_behind]
    rfl

theorem closeBrace_behind : (s.behind front k).closeBrace = follow front k s.closeBrace := by
  obtain ⟨mode, line, level, parens, buffer, startLine, dropping, statements, warnings⟩ := s
  unfold closeBrace
  show (if buffer.isEmpty then _ else _) = _
  split
  · cases level with
    | zero => rfl
    | succ level => rfl
  · rfl

theorem glyph_behind : (s.behind front k).glyph c = follow front k (s.glyph c) := by
  unfold glyph
  show (if s.parens = 0 ∧ c = ';' then _ else _) = _
  split
  · exact semicolon_behind s front k
  · show (if s.parens = 0 ∧ c = '\x7b' then _ else _) = _
    split
    · exact openBrace_behind s front k
    · show (if s.parens = 0 ∧ c = '\x7d' then _ else _) = _
      split
      · exact closeBrace_behind s front k
      · split
        · exact congrArg Except.ok (push_behind { s with parens := s.parens + 1 } front k c)
        · split
          · have hparens : (s.behind front k).parens = s.parens := rfl
            rw [hparens]
            cases s.parens with
            | zero => exact halt_behind s front k _ s.line _
            | succ parens =>
              exact congrArg Except.ok (push_behind { s with parens := parens } front k c)
          · exact congrArg Except.ok (push_behind s front k c)

theorem countLine_behind : (s.behind front k).countLine c = (s.countLine c).behind front k := by
  unfold countLine
  split
  · unfold behind
    dsimp only
    rw [Nat.add_right_comm]
  · rfl

theorem plain_behind : (s.behind front k).plain c = follow front k (s.plain c) := by
  unfold plain
  split
  · rw [mark_behind]
    rfl
  · split
    · rfl
    · split
      · exact congrArg Except.ok (countLine_behind s front k c)
      · exact glyph_behind s front k c

theorem loneSlash_behind : (s.behind front k).loneSlash = s.loneSlash.behind front k :=
  push_behind { s with mode := .plain } front k '/'

/-- **One character behind a text** does what it does without it: nothing that a step reads depends
    on what `front` has recorded. -/
theorem step_behind : (s.behind front k).step c = follow front k (s.step c) := by
  have hmode : (s.behind front k).mode = s.mode.raise k := rfl
  unfold step
  rw [hmode]
  cases s.mode with
  | plain => exact plain_behind s front k c
  | slash =>
    dsimp only [Mode.raise]
    split
    · rfl
    · split
      · rfl
      · rw [loneSlash_behind]
        exact plain_behind s.loneSlash front k c
  | lineComment =>
    dsimp only [Mode.raise]
    split
    · exact congrArg Except.ok (countLine_behind { s with mode := .plain } front k c)
    · rfl
  | blockComment opened star =>
    dsimp only [Mode.raise]
    split
    · rfl
    · exact congrArg Except.ok
        (countLine_behind { s with mode := .blockComment opened (c == '*') } front k c)
  | string literal escaped =>
    dsimp only [Mode.raise]
    rw [countLine_behind]
    split
    · rfl
    · split
      · rfl
      · split
        · rfl
        · rfl

theorem close_behind : (s.behind front k).close = follow front k s.close := by
  unfold close
  show (if !s.buffer.isEmpty then _ else if s.level ≠ 0 then _ else _) = _
  split
  · exact halt_behind s front k _ s.startLine _
  · split
    · exact halt_behind s front k _ s.line _
    · rfl

theorem finish_behind : (s.behind front k).finish = follow front k s.finish := by
  have hmode : (s.behind front k).mode = s.mode.raise k := rfl
  unfold finish
  rw [hmode]
  cases s.mode with
  | plain => exact close_behind s front k
  | lineComment => exact close_behind s front k
  | slash =>
    dsimp only [Mode.raise]
    rw [loneSlash_behind]
    exact close_behind s.loneSlash front k
  | blockComment opened star => exact halt_behind s front k _ opened _
  | string literal escaped => exact halt_behind s front k _ s.line _

/-- **A text behind a text** does what it does without it.  By induction on the text, with the step
    lemma. -/
theorem run_behind (cs : List Char) :
    cs.foldlM step (s.behind front k) = follow front k (cs.foldlM step s) := by
  induction cs generalizing s with
  | nil => rfl
  | cons c cs ih =>
    rw [List.foldlM_cons, List.foldlM_cons, step_behind]
    cases s.step c with
    | error h => rfl
    | ok s' => exact ih s'

end

/-! ## The line that the buffer began on -/

/-- `s.forget` — the scanner `s` without the line that its statement began on, where no statement is
    begun.  That line is left over from the statement before, and nothing reads it. -/
def forget (s : Scanner) : Scanner :=
  match s.mode with
  | .string .. => s
  | _ => if s.buffer.isEmpty then { s with startLine := 0 } else s

section

variable (mode : Mode) (line level parens start : Nat) (dropping : Option Nat)
  (statements : Array Statement) (warnings : Array Warning) (c : Char)

/-- A scanner with nothing in its buffer, whose `startLine` is left over from a statement that is
    done. -/
def idle : Scanner := ⟨mode, line, level, parens, "", start, dropping, statements, warnings⟩

theorem glyph_idle :
    ((idle .plain line level parens start dropping statements warnings).glyph c).map forget
      = ((idle .plain line level parens 0 dropping statements warnings).glyph c).map forget := by
  unfold glyph idle
  dsimp only
  split
  · rfl
  · split
    · rfl
    · split
      · cases level with
        | zero => rfl
        | succ level => rfl
      · split
        · rfl
        · split
          · cases parens with
            | zero => rfl
            | succ parens => rfl
          · rfl

theorem step_idle (hmode : ¬mode.IsString) :
    ((idle mode line level parens start dropping statements warnings).step c).map forget
      = ((idle mode line level parens 0 dropping statements warnings).step c).map forget := by
  cases mode with
  | plain =>
    show ((idle .plain line level parens start dropping statements warnings).plain c).map forget
      = ((idle .plain line level parens 0 dropping statements warnings).plain c).map forget
    unfold plain
    split
    · rfl
    · split
      · rfl
      · split
        · unfold countLine
          split
          · rfl
          · rfl
        · exact glyph_idle line level parens start dropping statements warnings c
  | slash =>
    unfold step idle
    dsimp only
    split
    · rfl
    · split
      · rfl
      · rfl
  | lineComment =>
    unfold step idle
    dsimp only
    unfold countLine
    split
    · rfl
    · rfl
  | blockComment opened star =>
    unfold step idle
    dsimp only
    unfold countLine
    split
    · rfl
    · split
      · rfl
      · rfl
  | string literal escaped => exact absurd trivial hmode

theorem finish_idle (hmode : ¬mode.IsString) :
    ((idle mode line level parens start dropping statements warnings).finish).map forget
      = ((idle mode line level parens 0 dropping statements warnings).finish).map forget := by
  cases mode with
  | plain =>
    unfold finish idle close
    dsimp only
    cases level with
    | zero => rfl
    | succ level => rfl
  | lineComment =>
    cases level with
    | zero => rfl
    | succ level => rfl
  | slash => rfl
  | blockComment opened star => rfl
  | string literal escaped => exact absurd trivial hmode

theorem forget_idle (hmode : ¬mode.IsString) :
    (idle mode line level parens start dropping statements warnings).forget
      = idle mode line level parens 0 dropping statements warnings := by
  cases mode with
  | string literal escaped => exact absurd trivial hmode
  | _ => rfl

end

theorem statements_forget (s : Scanner) : s.forget.statements = s.statements := by
  unfold forget
  split
  · rfl
  · split
    · rfl
    · rfl

theorem warnings_forget (s : Scanner) : s.forget.warnings = s.warnings := by
  unfold forget
  split
  · rfl
  · split
    · rfl
    · rfl

/-- A scanner is idle, with a start line that is left over, or there is nothing to forget. -/
theorem idle_or_forget (s : Scanner) :
    (∃ start, ¬s.mode.IsString ∧
      s = idle s.mode s.line s.level s.parens start s.dropping s.statements s.warnings) ∨
    s.forget = s := by
  obtain ⟨mode, line, level, parens, buffer, start, dropping, statements, warnings⟩ := s
  by_cases hbuffer : buffer = ""
  · subst hbuffer
    cases mode with
    | string literal escaped => exact Or.inr rfl
    | _ => exact Or.inl ⟨start, id, rfl⟩
  · refine Or.inr ?_
    have hne : ¬buffer.isEmpty = true := by simpa using hbuffer
    unfold forget
    split
    · rfl
    · exact if_neg hne

theorem step_forget (s : Scanner) (c : Char) :
    (s.forget.step c).map forget = (s.step c).map forget := by
  rcases idle_or_forget s with ⟨start, hmode, hs⟩ | hs
  · rw [hs, forget_idle _ _ _ _ _ _ _ _ hmode]
    exact (step_idle _ _ _ _ _ _ _ _ c hmode).symm
  · rw [hs]

theorem finish_forget (s : Scanner) : s.forget.finish.map forget = s.finish.map forget := by
  rcases idle_or_forget s with ⟨start, hmode, hs⟩ | hs
  · rw [hs, forget_idle _ _ _ _ _ _ _ _ hmode]
    exact (finish_idle _ _ _ _ _ _ _ _ hmode).symm
  · rw [hs]

/-- `s.rest cs` — what the scanner `s` makes of the rest `cs` of the text and of its end. -/
def rest (s : Scanner) (cs : List Char) : Except Halt Scanner := cs.foldlM step s >>= finish

theorem rest_cons (s : Scanner) (c : Char) (cs : List Char) :
    s.rest (c :: cs) = s.step c >>= (·.rest cs) := by
  unfold rest
  rw [List.foldlM_cons, bind_assoc]

theorem rest_behind (s front : Scanner) (k : Nat) (cs : List Char) :
    (s.behind front k).rest cs = follow front k (s.rest cs) := by
  unfold rest
  rw [run_behind]
  cases cs.foldlM step s with
  | error h => rfl
  | ok s' => exact finish_behind s' front k

/-- What is forgotten does not matter to the rest `cs` of a text: the start line is set anew before
    it is read. -/
theorem rest_forget (s : Scanner) (cs : List Char) :
    (s.forget.rest cs).map forget = (s.rest cs).map forget := by
  induction cs generalizing s with
  | nil => exact finish_forget s
  | cons c cs ih =>
    have hstep := step_forget s c
    rw [rest_cons, rest_cons]
    cases ha : s.forget.step c with
    | error h =>
      cases hb : s.step c with
      | error h' =>
        rw [ha, hb] at hstep
        exact congrArg Except.error (Except.error.inj hstep)
      | ok b => rw [ha, hb] at hstep; exact nomatch hstep
    | ok a =>
      cases hb : s.step c with
      | error h' => rw [ha, hb] at hstep; exact nomatch hstep
      | ok b =>
        rw [ha, hb] at hstep
        -- the two may differ after the step, but only in what is forgotten
        have hforget : a.forget = b.forget := Except.ok.inj hstep
        show (a.rest cs).map forget = (b.rest cs).map forget
        rw [← ih a, ← ih b, hforget]

/-! ## The end of a text -/

theorem close_ok {s s' : Scanner} (h : s.close = .ok s') : s' = s ∧ s.buffer = "" ∧ s.level = 0 := by
  unfold close at h
  split at h
  · exact nomatch h
  · rename_i hbuffer
    split at h
    · exact nomatch h
    · rename_i hlevel
      refine ⟨(Except.ok.inj h).symm, by simpa using hbuffer, ?_⟩
      omega

/-- A text is accepted outside strings and block comments, with nothing begun and nothing open. -/
theorem finish_ok {s s' : Scanner} (h : s.finish = .ok s') :
    (s.mode = .plain ∨ s.mode = .lineComment) ∧ s' = s ∧ s.buffer = "" ∧ s.level = 0 := by
  unfold finish at h
  split at h
  · rename_i hmode
    exact ⟨Or.inl hmode, close_ok h⟩
  · rename_i hmode
    exact ⟨Or.inr hmode, close_ok h⟩
  · have hslash : s.loneSlash.buffer = ({ s with mode := .plain }.mark.buffer).push '/' := rfl
    have hempty := (close_ok h).2.1
    rw [hslash] at hempty
    exact absurd hempty (by simp)
  · exact nomatch h
  · exact nomatch h

/-- **Behind an accepted text and a line end** the scanner is as before its first character, on
another line. -/
theorem step_line_end {s s' : Scanner} (hsound : s.Sound) (h : s.finish = .ok s') :
    ∃ next, s.step '\n' = .ok next ∧ next.forget = (init.behind s' s'.line).forget := by
  obtain ⟨hmode, rfl, hbuffer, hlevel⟩ := finish_ok h
  have hopen := hsound.buffer
  have hinside := hsound.levels.inside
  obtain ⟨mode, line, level, parens, buffer, start, dropping, statements, warnings⟩ := s'
  dsimp only at hmode hbuffer hlevel hopen hinside
  subst hbuffer hlevel
  -- an open parenthesis would stand in the buffer, a disabled body would be open
  obtain rfl : parens = 0 := hopen.eq_zero
  have hdropping : dropping = none := by
    cases dropping with
    | none => rfl
    | some k => exact absurd (hinside k rfl) (Nat.not_lt_zero k)
  subst hdropping
  refine ⟨idle .plain (line + 1) 0 0 start none statements warnings, ?_, ?_⟩
  · -- in plain text the line end is a blank, in a comment it is the end
    rcases hmode with rfl | rfl
    · rfl
    · rfl
  · rw [forget_idle _ _ _ _ _ _ _ _ id]
    unfold behind init forget idle
    simp [Mode.raise, Nat.add_comm]

end Scanner

/-! ## Texts in a row -/

namespace Statement

/-- `Scan.ofResult r` — what a scan shows of the scanner that it ends with: the statements or the
    fault, and the warnings in either case. -/
def Scan.ofResult : Except Halt Scanner → Scan
  | .ok s => ⟨s.warnings.toList, .ok s.statements.toList⟩
  | .error h => ⟨h.warnings.toList, .error h.fault⟩

theorem scan_eq (text : String) : scan text = Scan.ofResult (Scanner.init.rest text.toList) := rfl

theorem ofResult_forget (x : Except Halt Scanner) :
    Scan.ofResult (x.map Scanner.forget) = Scan.ofResult x := by
  cases x with
  | error h => rfl
  | ok s =>
    show (⟨s.forget.warnings.toList, .ok s.forget.statements.toList⟩ : Scan) = _
    rw [Scanner.statements_forget, Scanner.warnings_forget]
    rfl

/-- **A text behind the scanner that another leaves.**  It has the warnings, and the statements or the
fault, that it has by itself, as many lines further down as the scanner has counted. -/
theorem scan_behind {front : String} {s' : Scanner} (h : Scanner.init.rest front.toList = .ok s')
    (text : String) : scan (front ++ "\n" ++ text) =
      ⟨s'.warnings.toList ++ (scan text).warnings.map (·.raise s'.line),
        match (scan text).result with
        | .ok more => .ok (s'.statements.toList ++ more.map (·.raise s'.line))
        | .error f => .error (f.raise s'.line)⟩ := by
  obtain ⟨s, hsteps, hfinish⟩ := Outcome.bind_ok.mp h
  have hsound : s.Sound :=
    Outcome.foldlM_ok (fun _ _ _ _ hs hstep => hs.step hstep) Scanner.sound_init hsteps
  obtain ⟨next, hnext, hforget⟩ := Scanner.step_line_end hsound hfinish
  have hsplit : Scanner.init.rest (front ++ "\n" ++ text).toList = next.rest text.toList := by
    rw [String.toList_append, String.toList_append, List.append_assoc]
    unfold Scanner.rest
    rw [List.foldlM_append, hsteps]
    show List.foldlM Scanner.step s ('\n' :: text.toList) >>= Scanner.finish = _
    rw [List.foldlM_cons, hnext]
    rfl
  have hrest : Scan.ofResult (next.rest text.toList)
      = Scan.ofResult (Scanner.follow s' s'.line (Scanner.init.rest text.toList)) := by
    rw [← ofResult_forget, ← Scanner.rest_forget, hforget, Scanner.rest_forget, ofResult_forget,
      Scanner.rest_behind]
  rw [scan_eq, hsplit, hrest, scan_eq]
  cases Scanner.init.rest text.toList with
  | error halt => simp [Scan.ofResult, Scanner.follow]
  | ok t => simp [Scan.ofResult, Scanner.follow, Scanner.behind]

/-- A text that is accepted leaves a scanner, which has recorded its warnings and its statements. -/
theorem rest_of_scan {text : String} {done : List Statement} (h : (scan text).result = .ok done) :
    ∃ s, Scanner.init.rest text.toList = .ok s ∧ s.statements.toList = done ∧
      s.warnings.toList = (scan text).warnings := by
  rw [scan_eq] at h ⊢
  cases hrest : Scanner.init.rest text.toList with
  | error halt => rw [hrest] at h; exact nomatch h
  | ok s =>
    rw [hrest] at h
    exact ⟨s, rfl, Except.ok.inj h, rfl⟩

/-- **Scanning goes text by text.**  Behind a text that is accepted, and a line end, another text has
the warnings, and the statements or the fault, that it has by itself, some lines further down. -/
theorem scan_concat {front : String} {done : List Statement} (h : (scan front).result = .ok done) :
    ∃ k, ∀ text, scan (front ++ "\n" ++ text) =
      ⟨(scan front).warnings ++ (scan text).warnings.map (·.raise k),
        match (scan text).result with
        | .ok more => .ok (done ++ more.map (·.raise k))
        | .error f => .error (f.raise k)⟩ := by
  obtain ⟨s, hrest, rfl, hwarnings⟩ := rest_of_scan h
  exact ⟨s.line, fun text => hwarnings ▸ scan_behind hrest text⟩

end Statement

end SolidExport
