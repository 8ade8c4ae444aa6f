/-
  How many lines a text takes.

  The scanner counts a line for each line end, whether it stands in plain text, in a comment or in a
  string, and a scanner that stops names the statement it stopped at (`Scanner.Advances`).  So the
  lines that a text behind another is raised by are those of the text in front and one more for the
  line end between the two (`scan_counts_lines`).
-/
import SolidExport.Proofs.Line.Scan

namespace SolidExport

open Source (lineEnds countLine_eq)

namespace Scanner

/-- `Advances s lines r` — how the scanner `s` comes out of a text with `lines` line ends, if the
    result is `r`: it has counted them, or it has stopped at a statement, whose line its fault
    names. -/
def Advances (s : Scanner) (lines : Nat) : Except Halt Scanner → Prop
  | .ok s' => s'.line = s.line + lines
  | .error h => ∃ l, h.fault.location = some l

section

variable (s : Scanner)

theorem advances_halt (lines : Nat) (cause : Cause) (line : Nat) (statement : String) :
    s.Advances lines (s.halt cause line statement) := ⟨_, rfl⟩

theorem line_mark : s.mark.line = s.line := by
  unfold mark
  split
  · rfl
  · rfl

theorem advances_push (c : Char) : s.Advances 0 (.ok (s.push c)) := line_mark s

/-! ## One character -/

theorem line_endStatement (opensBody : Bool) : (s.endStatement opensBody).line = s.line := by
  obtain ⟨warnings, dropping, statements, hend, -⟩ := endStatement_cases s opensBody
  rw [hend]

theorem advances_semicolon : s.Advances 0 s.semicolon := by
  show (if s.buffer.isEmpty then s else s.endStatement false).line = s.line
  split
  · rfl
  · exact line_endStatement s false

theorem advances_openBrace : s.Advances 0 s.openBrace := by
  unfold openBrace
  split
  · exact advances_halt s 0 _ _ _
  · exact line_endStatement s true

theorem advances_closeBrace : s.Advances 0 s.closeBrace := by
  unfold closeBrace
  split
  · split
    · exact advances_halt s 0 _ _ _
    · exact rfl
  · exact advances_halt s 0 _ _ _

theorem advances_glyph (c : Char) : s.Advances 0 (s.glyph c) := by
  unfold glyph
  split
  · exact advances_semicolon s
  · split
    · exact advances_openBrace s
    · split
      · exact advances_closeBrace s
      · split
        · exact advances_push { s with parens := s.parens + 1 } c
        · split
          · split
            · exact advances_halt s 0 _ _ _
            · rename_i parens _
              exact advances_push { s with parens := parens } c
          · exact advances_push s c

theorem advances_countLine (c : Char) : s.Advances (lineEnds [c]) (.ok (s.countLine c)) := by
  show (s.countLine c).line = _
  rw [countLine_eq]

/-- A character that is no line end counts none. -/
theorem lineEnds_of_ne {c : Char} (h : c ≠ '\n') : lineEnds [c] = 0 := by
  simp [lineEnds, h]

theorem advances_plain (c : Char) : s.Advances (lineEnds [c]) (s.plain c) := by
  unfold plain
  split
  · rename_i hc
    rw [hc]
    exact line_mark s
  · split
    · rename_i hc
      rw [hc]
      exact rfl
    · split
      · exact advances_countLine s c
      · rename_i hblank
        have hne : c ≠ '\n' := by
          rintro rfl
          exact hblank (by decide)
        rw [lineEnds_of_ne hne]
        exact advances_glyph s c

theorem line_loneSlash : s.loneSlash.line = s.line := line_mark { s with mode := .plain }

/-- **One character** is counted if it is a line end, whatever the scanner is inside of: a comment,
    a string, or neither. -/
theorem advances_step (c : Char) : s.Advances (lineEnds [c]) (s.step c) := by
  unfold step
  split
  · exact advances_plain s c
  · -- behind a slash: the second character of a mark is no line end
    split
    · rename_i hc
      rw [hc]
      exact rfl
    · split
      · rename_i hc
        rw [hc]
        exact rfl
      · have hplain := advances_plain s.loneSlash c
        unfold Advances at hplain ⊢
        rw [line_loneSlash] at hplain
        exact hplain
  · split
    · exact advances_countLine { s with mode := .plain } c
    · rename_i hc
      rw [lineEnds_of_ne hc]
      exact rfl
  · rename_i opened star _
    split
    · rename_i hc
      rw [Bool.and_eq_true, beq_iff_eq] at hc
      rw [hc.2]
      exact rfl
    · exact advances_countLine { s with mode := .blockComment opened (c == '*') } c
  · rename_i literal escaped _
    have hline : (s.countLine c).line = s.line + lineEnds [c] := advances_countLine s c
    dsimp only
    split
    · exact hline
    · split
      · exact hline
      · split
        · exact hline
        · exact hline

/-! ## The whole text -/

theorem advances_close : s.Advances 0 s.close := by
  unfold close
  split
  · exact advances_halt s 0 _ _ _
  · split
    · exact advances_halt s 0 _ _ _
    · exact rfl

theorem advances_finish : s.Advances 0 s.finish := by
  unfold finish
  split
  · exact advances_close s
  · exact advances_close s
  · have hclose := advances_close s.loneSlash
    unfold Advances at hclose ⊢
    rw [line_loneSlash] at hclose
    exact hclose
  · exact advances_halt s 0 _ _ _
  · exact advances_halt s 0 _ _ _

/-- **A text** is counted through to its end, or the scanner stops at a statement of it. -/
theorem advances_rest (cs : List Char) : s.Advances (lineEnds cs) (s.rest cs) := by
  induction cs generalizing s with
  | nil => exact advances_finish s
  | cons c cs ih =>
    have hstep := advances_step s c
    rw [rest_cons]
    cases hc : s.step c with
    | error h =>
      rw [hc] at hstep
      exact hstep
    | ok m =>
      rw [hc] at hstep
      have hrest : m.Advances (lineEnds cs) (m.rest cs) := ih m
      have hlines : lineEnds (c :: cs) = lineEnds [c] + lineEnds cs :=
        Source.lineEnds_append [c] cs
      show s.Advances (lineEnds (c :: cs)) (m.rest cs)
      cases hm : m.rest cs with
      | error h =>
        rw [hm] at hrest
        exact hrest
      | ok s' =>
        rw [hm] at hrest
        change s'.line = s.line + lineEnds (c :: cs)
        rw [hlines, ← Nat.add_assoc, ← show m.line = s.line + lineEnds [c] from hstep]
        exact hrest

end

end Scanner

namespace Statement

/-- A text that is accepted leaves the scanner on the line behind its last line end, so every line
    was counted once. -/
theorem line_of_rest {cs : List Char} {s : Scanner} (h : Scanner.init.rest cs = .ok s) :
    s.line = 1 + lineEnds cs := by
  have hadvances := Scanner.advances_rest Scanner.init cs
  rw [h] at hadvances
  exact hadvances

/-- A text that is refused by the scanner is refused at a statement, whose place its fault names. -/
theorem location_of_scan {text : String} {f : Fault} (h : (scan text).result = .error f) :
    ∃ l, f.location = some l := by
  have hadvances := Scanner.advances_rest Scanner.init text.toList
  rw [scan_eq] at h
  cases hrest : Scanner.init.rest text.toList with
  | ok s => rw [hrest] at h; exact nomatch h
  | error halt =>
    rw [hrest] at h hadvances
    obtain rfl := Except.error.inj h
    exact hadvances

/-- **Scanning is a homomorphism.**  Behind a text that is accepted, and a line end, another text has
    the warnings that it has by itself, and the statements, or the fault with its cause and the
    statement it is found in.  All lines are greater by one and the number of line ends in front. -/
theorem scan_counts_lines {front : String} {done : List Statement}
    (h : (scan front).result = .ok done) (text : String) :
    (scan (front ++ "\n" ++ text)).warnings
      = (scan front).warnings
        ++ (scan text).warnings.map (·.raise (1 + front.toList.count '\n')) ∧
    (∀ more, (scan text).result = .ok more →
      (scan (front ++ "\n" ++ text)).result
        = .ok (done ++ more.map (·.raise (1 + front.toList.count '\n')))) ∧
    ∀ f, (scan text).result = .error f → ∃ l, f.location = some l ∧
      (scan (front ++ "\n" ++ text)).result = .error
        ⟨f.cause, some ⟨l.line + (1 + front.toList.count '\n' : Nat), l.tag, l.signature⟩⟩ := by
  obtain ⟨s, hrest, rfl, hwarnings⟩ := rest_of_scan h
  have hline : s.line = 1 + front.toList.count '\n' := line_of_rest hrest
  rw [scan_behind hrest, hline]
  refine ⟨by rw [hwarnings], fun more hmore => ?_, fun f hf => ?_⟩
  · rw [hmore]
  · obtain ⟨l, hl⟩ := location_of_scan hf
    refine ⟨l, hl, ?_⟩
    rw [hf]
    simp only [Fault.raise, hl]
    rfl

/-- A disabled body and comments over three lines, with the last comment left open. -/
def threeLines : String := "%a()\x7b\nb();\x7d/*\n*/ !c(); // d"

theorem scan_counts_lines_threeLines :
    (scan threeLines).result = .ok [⟨"c()", 0, 3⟩] ∧
    (scan (threeLines ++ "\n" ++ "d();\n#e();")).result
      = .ok [⟨"c()", 0, 3⟩, ⟨"d()", 0, 4⟩, ⟨"e()", 0, 5⟩] ∧
    (scan (threeLines ++ "\n" ++ "!d();\n)")).warnings
      = [.disabledStatement 1 "a()", .ignoredModifier 3, .ignoredModifier 4] ∧
    (scan (threeLines ++ "\n" ++ "!d();\n)")).result
      = .error ⟨.unbalancedParenthesis, some ⟨5, ")", ")"⟩⟩ := by
  have hfront : (scan threeLines).result = .ok [⟨"c()", 0, 3⟩] := rfl
  have hwarned : (scan threeLines).warnings = [.disabledStatement 1 "a()", .ignoredModifier 3] := by
    decide +kernel
  have hbehind : (scan "!d();\n)").warnings = [.ignoredModifier 1] := by decide +kernel
  obtain ⟨-, hmore, -⟩ := scan_counts_lines hfront "d();\n#e();"
  obtain ⟨hwarnings, -, hfault⟩ := scan_counts_lines hfront "!d();\n)"
  refine ⟨hfront, hmore [⟨"d()", 0, 1⟩, ⟨"e()", 0, 2⟩] rfl, ?_, ?_⟩
  · rw [hwarnings, hwarned, hbehind]
    rfl
  · obtain ⟨l, hl, hresult⟩ := hfault ⟨.unbalancedParenthesis, some ⟨2, ")", ")"⟩⟩ rfl
    obtain rfl := Option.some.inj hl
    exact hresult

end Statement

end SolidExport
