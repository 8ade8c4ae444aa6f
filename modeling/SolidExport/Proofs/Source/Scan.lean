/-
  Scanning a printed program.

  Inside parentheses the scanner takes a printed text as it stands (`Passes`); such texts follow each
  other.  A signature goes into the buffer as a whole (`foldlM_signature`).  What ends it makes it a
  statement, so a printed call leaves the scanner where it was, with the statements of its node added
  (`Call.scans_chars`).
-/
import SolidExport.Proofs.Source.Nest
import SolidExport.Proofs.Source.Signature
import SolidExport.Statement

namespace SolidExport.Source

open Outcome

theorem lineEnds_append (cs ds : List Char) : lineEnds (cs ++ ds) = lineEnds cs + lineEnds ds :=
  List.count_append

/-! ## Inside parentheses -/

/-- `taking s cs` — the scanner `s` once it has taken the text `cs` as it stands. -/
def taking (s : Scanner) (cs : List Char) : Scanner :=
  { s with buffer := s.buffer ++ String.ofList cs, line := s.line + lineEnds cs }

/-- `Passes cs` — inside parentheses the text `cs` is taken as it stands.  A statement has begun by
    then, so the line of its beginning is known. -/
def Passes (cs : List Char) : Prop :=
  ∀ s : Scanner, s.mode = .plain → 0 < s.parens → s.buffer ≠ "" →
    cs.foldlM Scanner.step s = .ok (taking s cs)

theorem passes_append {cs ds : List Char} (hc : Passes cs) (hd : Passes ds) :
    Passes (cs ++ ds) := by
  intro s hmode hparens hbuffer
  have hbuffer' : (taking s cs).buffer ≠ "" := by
    show s.buffer ++ _ ≠ ""
    simp [hbuffer]
  rw [foldlM_append_of_ok (hc s hmode hparens hbuffer), hd (taking s cs) hmode hparens hbuffer']
  simp only [taking, lineEnds_append, String.ofList_append, String.append_assoc, Nat.add_assoc]

theorem closed_passes : Closed Passes where
  nil := by
    intro s _ _ _
    show Except.ok s = .ok (taking s [])
    simp [taking, lineEnds]
  append := passes_append

/-- A buffer that is begun takes one more character, and its line stays. -/
theorem push_of_buffer {s : Scanner} (h : s.buffer ≠ "") (c : Char) :
    s.push c = { s with buffer := s.buffer.push c } := by
  have hempty : ¬ s.buffer.isEmpty = true := by simpa using h
  unfold Scanner.push Scanner.mark
  rw [if_neg hempty]

/-- `isInert c` — whether `c` has no meaning of its own inside parentheses and is no white space, so
    that it is taken as it stands. -/
def isInert (c : Char) : Bool :=
  c != '"' && c != '/' && c != '(' && c != ')' && !Text.isBlank c

theorem passes_char {c : Char} (hc : isInert c = true) : Passes [c] := by
  simp only [isInert, Bool.and_eq_true, bne_iff_ne, Bool.not_eq_true'] at hc
  obtain ⟨⟨⟨⟨hquote, hslash⟩, hopen⟩, hclose⟩, hblank⟩ := hc
  intro s hmode hparens hbuffer
  have hparens' : s.parens ≠ 0 := Nat.ne_of_gt hparens
  have hline : lineEnds [c] = 0 := by
    have hne : c ≠ '\n' := by
      rintro rfl
      exact absurd hblank (by decide)
    simp [lineEnds, hne]
  have hstep : s.step c = .ok (s.push c) := by
    simp [Scanner.step, hmode, Scanner.plain, hquote, hslash, hblank, Scanner.glyph, hparens', hopen,
      hclose]
  rw [foldlM_cons_of_ok hstep, push_of_buffer hbuffer, taking, hline, String.push_eq_append]
  rfl

theorem isInert_of_isOrdinary {c : Char} (h : isOrdinary c = true) : isInert c = true := by
  have h1 := ne_of_isOrdinary h (d := '"') (by decide)
  have h2 := ne_of_isOrdinary h (d := '/') (by decide)
  have h3 := ne_of_isOrdinary h (d := '(') (by decide)
  have h4 := ne_of_isOrdinary h (d := ')') (by decide)
  simp [isInert, h1, h2, h3, h4, isBlank_of_isOrdinary h]

theorem passes_word {cs : List Char} (hcs : IsWord cs) : Passes cs :=
  closed_passes.chars fun c hc => passes_char (isInert_of_isOrdinary (hcs c hc))

/-! ## Strings -/

theorem countLine_eq (s : Scanner) (c : Char) :
    s.countLine c = { s with line := s.line + lineEnds [c] } := by
  unfold Scanner.countLine lineEnds
  by_cases h : c = '\n'
  · simp [h]
  · simp [h]

/-- `inString s read escaped lines` — the scanner `s` inside a string, of which it has read `read`,
    `lines` lines further on; `escaped` if the next character stands behind a backslash. -/
def inString (s : Scanner) (read : String) (escaped : Bool) (lines : Nat) : Scanner :=
  { s with mode := .string read escaped, line := s.line + lines }

theorem step_escaped (s : Scanner) (read : String) (lines : Nat) (c : Char) :
    (inString s read true lines).step c =
      .ok (inString s (read.push c) false (lines + lineEnds [c])) := by
  unfold Scanner.step inString
  dsimp only
  rw [countLine_eq]
  dsimp only
  rw [Nat.add_assoc]
  rfl

/-- A character that does not end the string is read on.  A backslash is remembered, and a line end
    counted. -/
theorem step_unescaped (s : Scanner) (read : String) (lines : Nat) {c : Char} (hquote : c ≠ '"') :
    (inString s read false lines).step c =
      .ok (inString s (read.push c) (c == '\\') (lines + lineEnds [c])) := by
  unfold Scanner.step inString
  dsimp only
  rw [countLine_eq]
  dsimp only
  rw [Nat.add_assoc, if_neg Bool.false_ne_true]
  by_cases hslash : c = '\\'
  · rw [if_pos hslash, hslash]
    rfl
  · rw [if_neg hslash, if_neg hquote]
    simp [hslash]

theorem Mark.foldlM_chars (m : Mark) (s : Scanner) (read : String) (lines : Nat) :
    m.chars.foldlM Scanner.step (inString s read false lines) =
      .ok (inString s (read ++ String.ofList m.chars) false (lines + lineEnds m.chars)) := by
  cases m with
  | bare c free =>
    rw [Mark.chars, foldlM_cons_of_ok (step_unescaped s read lines free.1),
      beq_eq_false_iff_ne.mpr free.2, String.push_eq_append]
    rfl
  | escaped c =>
    rw [Mark.chars, foldlM_cons_of_ok (step_unescaped s read lines (by decide)), beq_self_eq_true,
      foldlM_cons_of_ok (step_escaped s _ _ c), ← push_append, String.push_eq_append]
    rfl

/-- The marks of a string are read on inside it, each with all its characters. -/
theorem foldlM_marks (marks : List Mark) (s : Scanner) (read : String) (lines : Nat) :
    (marks.flatMap Mark.chars).foldlM Scanner.step (inString s read false lines) =
      .ok (inString s (read ++ String.ofList (marks.flatMap Mark.chars)) false
        (lines + lineEnds (marks.flatMap Mark.chars))) := by
  induction marks generalizing read lines with
  | nil =>
    show Except.ok _ = Except.ok _
    simp [lineEnds]
  | cons m marks ih =>
    rw [List.flatMap_cons, foldlM_append_of_ok (m.foldlM_chars s read lines), ih]
    simp only [lineEnds_append, String.ofList_append, String.append_assoc, Nat.add_assoc]

/-- A string goes into the buffer as a whole, quotes and all. -/
theorem foldlM_string {s : Scanner} (hmode : s.mode = .plain) (marks : List Mark) :
    ('"' :: (marks.flatMap Mark.chars ++ ['"'])).foldlM Scanner.step s =
      .ok (taking s.mark ('"' :: (marks.flatMap Mark.chars ++ ['"']))) := by
  have hmark : s.mark.mode = .plain := by
    unfold Scanner.mark
    split
    · exact hmode
    · exact hmode
  have hopen : s.step '"' = .ok (inString s.mark "\"" false 0) := by
    simp [Scanner.step, hmode, Scanner.plain, inString]
  have hclose : ∀ read lines, (inString s.mark read false lines).step '"' =
      .ok { s.mark with buffer := s.mark.buffer ++ read.push '"', line := s.mark.line + lines } := by
    intro read lines
    unfold Scanner.step inString
    dsimp only
    rw [countLine_eq]
    simp [lineEnds, hmark]
  rw [foldlM_cons_of_ok hopen, foldlM_append_of_ok (foldlM_marks marks s.mark _ _),
    foldlM_cons_of_ok (hclose _ _)]
  generalize marks.flatMap Mark.chars = text
  have hlines : lineEnds ('"' :: (text ++ ['"'])) = 0 + lineEnds text := by simp [lineEnds]
  have htext : ("\"" ++ String.ofList text).push '"' = String.ofList ('"' :: (text ++ ['"'])) := by
    rw [← String.toList_inj]
    simp
  rw [taking, hlines, htext]
  rfl

theorem passes_string (marks : List Mark) : Passes ('"' :: (marks.flatMap Mark.chars ++ ['"'])) := by
  intro s hmode hparens hbuffer
  have hempty : ¬ s.buffer.isEmpty = true := by simpa using hbuffer
  have hmark : s.mark = s := if_neg hempty
  rw [foldlM_string hmode, hmark]

/-! ## Values and parameters -/

theorem Value.passes_chars (v : Value) : Passes v.chars := by
  induction v using Value.induction with
  | number n => exact passes_word n.isWord_chars
  | boolean b => exact passes_word (isWord_booleanText b)
  | string marks => exact passes_string marks
  | vector items ih =>
    have hitems : Passes (listed ',' (items.map Value.chars)) := by
      refine closed_passes.listed (passes_char (by decide)) fun t ht => ?_
      obtain ⟨v, hv, rfl⟩ := List.mem_map.mp ht
      exact ih v hv
    have hopen : Passes ['['] := passes_char (by decide)
    have hclose : Passes [']'] := passes_char (by decide)
    rw [Value.chars, Value.allChars_eq]
    exact passes_append hopen (passes_append hitems hclose)

theorem Param.passes_chars (p : Param) : Passes p.chars := by
  have hequals : Passes ['='] := passes_char (by decide)
  unfold Param.chars
  cases p.name with
  | none => exact p.value.passes_chars
  | some name =>
    exact passes_append (passes_append (passes_word name.isWord_text) hequals) p.value.passes_chars

/-! ## Signatures -/

/-- `Ready s` — the scanner `s` is between statements, with nothing dropped. -/
structure Ready (s : Scanner) : Prop where
  mode : s.mode = .plain
  parens : s.parens = 0
  buffer : s.buffer = ""
  dropping : s.dropping = none

/-- In plain text a character that is no white space and begins no string or comment is a glyph. -/
theorem step_glyph {s : Scanner} {c : Char} (hmode : s.mode = .plain)
    (hc : (c != '"' && c != '/' && !Text.isBlank c) = true) : s.step c = s.glyph c := by
  simp only [Bool.and_eq_true, bne_iff_ne, Bool.not_eq_true'] at hc
  simp [Scanner.step, hmode, Scanner.plain, hc]

/-- An ordinary character in plain text goes into the buffer. -/
theorem step_ordinary {s : Scanner} {c : Char} (hmode : s.mode = .plain) (hc : isOrdinary c = true) :
    s.step c = .ok (s.push c) := by
  have h1 := ne_of_isOrdinary hc (d := '"') (by decide)
  have h2 := ne_of_isOrdinary hc (d := '/') (by decide)
  have h3 := ne_of_isOrdinary hc (d := ';') (by decide)
  have h4 := ne_of_isOrdinary hc (d := '\x7b') (by decide)
  have h5 := ne_of_isOrdinary hc (d := '\x7d') (by decide)
  have h6 := ne_of_isOrdinary hc (d := '(') (by decide)
  have h7 := ne_of_isOrdinary hc (d := ')') (by decide)
  rw [step_glyph hmode (by simp [h1, h2, isBlank_of_isOrdinary hc])]
  simp [Scanner.glyph, h3, h4, h5, h6, h7]

/-- `reading s text parens` — the scanner `s` once it has read `text` of a statement that began
    where it stood, with `parens` parentheses open. -/
def reading (s : Scanner) (text : List Char) (parens : Nat) : Scanner :=
  { s with
    parens := parens
    buffer := String.ofList text
    startLine := s.line
    line := s.line + lineEnds text }

/-- The first character of a statement marks its line. -/
theorem step_first {s : Scanner} (hs : Ready s) {c : Char} (hc : isOrdinary c = true) :
    s.step c = .ok (reading s [c] 0) := by
  have hempty : s.buffer.isEmpty = true := by
    rw [hs.buffer]
    rfl
  have hline : lineEnds [c] = 0 := by simp [lineEnds, ne_of_isOrdinary hc (d := '\n') (by decide)]
  rw [step_ordinary hs.mode hc]
  unfold Scanner.push Scanner.mark reading
  rw [if_pos hempty, hline, hs.buffer, hs.parens]
  rfl

/-- A character that is pushed behind others of a statement is read on with them. -/
theorem push_reading (s : Scanner) {text : List Char} (htext : text ≠ []) (parens : Nat) {c : Char}
    (hc : c ≠ '\n') : (reading s text parens).push c = reading s (text ++ [c]) parens := by
  have hbuffer : (reading s text parens).buffer ≠ "" := by simpa [reading] using htext
  have hlines : lineEnds (text ++ [c]) = lineEnds text := by simp [lineEnds, hc]
  rw [push_of_buffer hbuffer]
  unfold reading
  rw [hlines, String.ofList_append, String.push_eq_append]
  rfl

theorem foldlM_word {s : Scanner} (hs : Ready s) {text cs : List Char} (htext : text ≠ [])
    (hcs : IsWord cs) (parens : Nat) :
    cs.foldlM Scanner.step (reading s text parens) = .ok (reading s (text ++ cs) parens) := by
  induction cs generalizing text with
  | nil => rw [List.append_nil]; rfl
  | cons c cs ih =>
    have hc := hcs c List.mem_cons_self
    have hstep : (reading s text parens).step c = .ok (reading s (text ++ [c]) parens) := by
      have hmode : (reading s text parens).mode = .plain := hs.mode
      rw [step_ordinary hmode hc, push_reading s htext parens (ne_of_isOrdinary hc (by decide))]
    rw [foldlM_cons_of_ok hstep, ih (by simp) fun d hd => hcs d (List.mem_cons_of_mem c hd),
      List.append_assoc]
    rfl

theorem step_open {s : Scanner} (hs : Ready s) {text : List Char} (htext : text ≠ []) :
    (reading s text 0).step '(' = .ok (reading s (text ++ ['(']) 1) := by
  have hmode : (reading s text 0).mode = .plain := hs.mode
  rw [step_glyph hmode (by decide)]
  exact congrArg Except.ok (push_reading s htext 1 (by decide))

theorem step_close {s : Scanner} (hs : Ready s) {text : List Char} (htext : text ≠ []) :
    (reading s text 1).step ')' = .ok (reading s (text ++ [')']) 0) := by
  have hmode : (reading s text 1).mode = .plain := hs.mode
  rw [step_glyph hmode (by decide)]
  exact congrArg Except.ok (push_reading s htext 0 (by decide))

theorem foldlM_passes {s : Scanner} (hs : Ready s) {text cs : List Char} (htext : text ≠ [])
    (hcs : Passes cs) :
    cs.foldlM Scanner.step (reading s text 1) = .ok (reading s (text ++ cs) 1) := by
  have hmode : (reading s text 1).mode = .plain := hs.mode
  have hbuffer : (reading s text 1).buffer ≠ "" := by simpa [reading] using htext
  rw [hcs _ hmode Nat.one_pos hbuffer]
  unfold taking reading
  dsimp only
  rw [lineEnds_append, String.ofList_append, Nat.add_assoc]

/-- A tag with the parenthesis behind it begins a statement. -/
theorem foldlM_opening {s : Scanner} (hs : Ready s) (tag : Identifier) :
    (tag.text.toList ++ ['(']).foldlM Scanner.step s =
      .ok (reading s (tag.text.toList ++ ['(']) 1) := by
  obtain ⟨c, cs, htext⟩ := tag.text_cons
  have hword := tag.isWord_text
  rw [htext] at hword ⊢
  have hrest : IsWord cs := fun d hd => hword d (List.mem_cons_of_mem c hd)
  rw [List.cons_append, foldlM_cons_of_ok (step_first hs (hword c List.mem_cons_self)),
    foldlM_append_of_ok (foldlM_word hs (List.cons_ne_nil c []) hrest 0)]
  exact foldlM_cons_of_ok (step_open hs (by simp)) []

/-- **A signature is read into the buffer as it stands**, and all parentheses are closed behind
    it. -/
theorem foldlM_signature {s : Scanner} (hs : Ready s) (tag : Identifier) (params : List Param) :
    (Call.signature tag params).foldlM Scanner.step s =
      .ok (reading s (Call.signature tag params) 0) := by
  have hlist : Passes (listed ',' (params.map Param.chars)) := by
    refine closed_passes.listed (passes_char (by decide)) fun t ht => ?_
    obtain ⟨p, _, rfl⟩ := List.mem_map.mp ht
    exact p.passes_chars
  rw [Call.signature, List.append_cons, foldlM_append_of_ok (foldlM_opening hs tag),
    foldlM_append_of_ok (foldlM_passes hs (by simp) hlist),
    foldlM_cons_of_ok (step_close hs (by simp))]
  show Except.ok (reading s _ 0) = _
  simp

/-! ## Statements -/

/-- `Scanned s s' lines statements` — what a printed text does between statements: it brings the
    scanner from `s` to `s'`, which is between statements at the same level, `lines` lines on, and
    has recorded `statements`. -/
structure Scanned (s s' : Scanner) (lines : Nat) (statements : List Statement) : Prop where
  ready : Ready s'
  level : s'.level = s.level
  line : s'.line = s.line + lines
  statements : s'.statements = s.statements ++ statements.toArray
  warnings : s'.warnings = s.warnings

theorem Scanned.trans {s m s' : Scanner} {k l : Nat} {as bs : List Statement}
    (h : Scanned s m k as) (h' : Scanned m s' l bs) : Scanned s s' (k + l) (as ++ bs) where
  ready := h'.ready
  level := h'.level.trans h.level
  line := by rw [h'.line, h.line, Nat.add_assoc]
  statements := by
    rw [h'.statements, h.statements]
    simp
  warnings := h'.warnings.trans h.warnings

/-- A text that begins with a tag begins with no modifier. -/
theorem isModifier_tag (tag : Identifier) (rest : List Char) :
    ∀ c ∈ (tag.text.toList ++ rest).head?, Scanner.isModifier c = false := by
  intro c hc
  obtain ⟨d, ds, htext⟩ := tag.text_cons
  have hword := tag.isWord_text d
  rw [htext] at hc
  obtain rfl : d = c := Option.some.inj hc
  rw [htext] at hword
  have hordinary := hword List.mem_cons_self
  have h1 := ne_of_isOrdinary hordinary (d := '*') (by decide)
  have h2 := ne_of_isOrdinary hordinary (d := '%') (by decide)
  have h3 := ne_of_isOrdinary hordinary (d := '!') (by decide)
  have h4 := ne_of_isOrdinary hordinary (d := '#') (by decide)
  simp [Scanner.isModifier, h1, h2, h3, h4]

/-- The end of a text without modifiers makes it a statement, if nothing is being dropped. -/
theorem endStatement_text {s : Scanner} (hdropping : s.dropping = none) {text : List Char}
    (hbuffer : s.buffer = String.ofList text) (htext : ∀ c ∈ text.head?, Scanner.isModifier c = false)
    (opensBody : Bool) :
    s.endStatement opensBody =
      { s with
        level := if opensBody then s.level + 1 else s.level
        buffer := ""
        statements := s.statements.push ⟨String.ofList text, s.level, s.startLine⟩ } := by
  obtain ⟨htake, hdrop⟩ := span_append (fun c hc => absurd hc List.not_mem_nil) htext
  rw [List.nil_append] at htake hdrop
  unfold Scanner.endStatement
  dsimp only
  rw [hbuffer, String.toList_ofList, htake, hdrop, hdropping]
  cases opensBody <;> simp

/-- `ended s signature opensBody` — the scanner `s` behind a call with this signature that has been
    ended by a semicolon or by the brace of its body. -/
def ended (s : Scanner) (signature : List Char) (opensBody : Bool) : Scanner :=
  { s with
    level := if opensBody then s.level + 1 else s.level
    parens := 0
    buffer := ""
    startLine := s.line
    line := s.line + lineEnds signature
    statements := s.statements.push ⟨String.ofList signature, s.level, s.line⟩ }

/-- The end of a signature makes it a statement, without modifiers and warnings. -/
theorem endStatement_reading {s : Scanner} (hs : Ready s) (tag : Identifier) (params : List Param)
    (opensBody : Bool) :
    (reading s (Call.signature tag params) 0).endStatement opensBody =
      ended s (Call.signature tag params) opensBody :=
  endStatement_text (s := reading s (Call.signature tag params) 0) hs.dropping rfl
    (isModifier_tag tag _) opensBody

/-- A semicolon or an opening brace behind a signature ends it, and the buffer is empty again. -/
theorem step_end {s : Scanner} (hs : Ready s) (tag : Identifier) (params : List Param) :
    (reading s (Call.signature tag params) 0).step ';' =
        .ok (ended s (Call.signature tag params) false) ∧
      (reading s (Call.signature tag params) 0).step '\x7b' =
        .ok (ended s (Call.signature tag params) true) := by
  have hmode : (reading s (Call.signature tag params) 0).mode = .plain := hs.mode
  have hbuffer : ¬ (reading s (Call.signature tag params) 0).buffer.isEmpty = true := by
    simp [reading, Call.signature]
  rw [step_glyph hmode (by decide), step_glyph hmode (by decide)]
  constructor
  · show Scanner.semicolon _ = _
    rw [Scanner.semicolon, if_neg hbuffer, endStatement_reading hs]
  · show Scanner.openBrace _ = _
    rw [Scanner.openBrace, if_neg hbuffer, endStatement_reading hs]

/-- A closing brace behind a statement goes one level up and records nothing. -/
theorem step_closeBrace {s : Scanner} (hs : Ready s) {level : Nat} (hlevel : s.level = level + 1) :
    s.step '\x7d' = .ok { s with level := level } := by
  obtain ⟨mode, line, level', parens, buffer, startLine, dropping, statements, warnings⟩ := s
  obtain ⟨hmode, hparens, hbuffer, hdropping⟩ := hs
  subst hmode hparens hbuffer hdropping hlevel
  rfl

/-! ## Calls -/

/-- Induction on a call: a property holds of every call if it holds of a call whenever it holds of
    each call in its body. -/
@[elab_as_elim]
theorem Call.induction {motive : Call → Prop}
    (step : ∀ c : Call, (∀ d ∈ c.body, motive d) → motive c) (c : Call) : motive c := by
  obtain ⟨tag, params, body⟩ := c
  refine step _ fun d hd => ?_
  have hlt : sizeOf d < sizeOf (Call.mk tag params body) := by
    have h : sizeOf d < sizeOf body := List.sizeOf_lt_of_mem hd
    simp only [Call.mk.sizeOf_spec]
    omega
  exact induction step d
termination_by sizeOf c

/-- `Scans cs heads` — the printed text `cs` gives the statements of the heads that `heads` has for
    the level and the line where the scanner stands. -/
def Scans (cs : List Char) (heads : Nat → Nat → List Head) : Prop :=
  ∀ s, Ready s → ∃ s', cs.foldlM Scanner.step s = .ok s' ∧
    Scanned s s' (lineEnds cs) ((heads s.level s.line).map (·.statement))

/-- Calls in a row are scanned in a row, if each is: the next begins on the line where the last has
    ended. -/
theorem scans_allChars {calls : List Call}
    (h : ∀ c ∈ calls, Scans c.chars fun level line => (c.node level line).heads) :
    Scans (Call.allChars calls) fun level line => Node.headsOf (Call.nodes level line calls) := by
  induction calls with
  | nil =>
    intro s hs
    exact ⟨s, rfl, hs, rfl, rfl, by simp [Call.nodes, Node.headsOf], rfl⟩
  | cons c calls ih =>
    intro s hs
    obtain ⟨m, hrun, hm⟩ := h c List.mem_cons_self s hs
    obtain ⟨s', hrun', hs'⟩ := ih (fun d hd => h d (List.mem_cons_of_mem c hd)) m hm.ready
    refine ⟨s', ?_, ?_⟩
    · rw [Call.allChars, foldlM_append_of_ok hrun, hrun']
    · rw [hm.level, hm.line] at hs'
      dsimp only
      rw [Call.allChars, lineEnds_append, Call.nodes, Node.headsOf, List.map_append]
      exact hm.trans hs'

/-- **A printed call gives the statements of its node.**  By induction on the call. -/
theorem Call.scans_chars (c : Call) :
    Scans c.chars fun level line => (c.node level line).heads := by
  induction c using Call.induction with
  | step c ih =>
    obtain ⟨tag, params, body⟩ := c
    intro s hs
    obtain ⟨hsemicolon, hopen⟩ := step_end hs tag params
    have hready : ∀ opensBody, Ready (ended s (signature tag params) opensBody) :=
      fun opensBody => ⟨hs.mode, rfl, rfl, hs.dropping⟩
    have hsignature := foldlM_signature hs tag params
    cases body with
    | nil =>
      refine ⟨ended s (signature tag params) false, ?_, ?_⟩
      · rw [chars, foldlM_append_of_ok hsignature]
        exact foldlM_cons_of_ok hsemicolon []
      · have hlines : lineEnds (chars ⟨tag, params, []⟩) = lineEnds (signature tag params) := by
          simp [chars, lineEnds]
        rw [hlines]
        exact ⟨hready false, rfl, rfl, by simp [ended, node, nodes, Node.heads, Node.headsOf], rfl⟩
    | cons d ds =>
      obtain ⟨m, hrun, hm⟩ := scans_allChars ih _ (hready true)
      have hclose := step_closeBrace hm.ready hm.level
      refine ⟨{ m with level := s.level }, ?_, ?_⟩
      · rw [chars, foldlM_append_of_ok hsignature]
        show List.foldlM Scanner.step _ ('\x7b' :: (allChars (d :: ds) ++ ['\x7d'])) = _
        rw [foldlM_cons_of_ok hopen, foldlM_append_of_ok hrun]
        exact foldlM_cons_of_ok hclose []
      · have hlines : lineEnds (chars ⟨tag, params, d :: ds⟩) =
            lineEnds (signature tag params) + lineEnds (allChars (d :: ds)) := by
          simp [chars, lineEnds]
        rw [hlines]
        refine ⟨⟨hm.ready.mode, hm.ready.parens, hm.ready.buffer, hm.ready.dropping⟩, rfl, ?_, ?_,
          hm.warnings⟩
        · show m.line = _
          rw [hm.line, ← Nat.add_assoc]
          rfl
        · show m.statements = _
          rw [hm.statements]
          dsimp only
          rw [node, Node.heads]
          simp [ended]

end SolidExport.Source
