/-
  Where a scan stops.

  A scanner stops for one of eight causes, and for each it names a line and a text (`Scanner.Stops`).
  The text is what has been read of a statement, or a brace.  The line is the one being read, the one
  that the statement begins on, or the one that opens the comment.

  So a fault of a scan names a line of the text that was scanned, and what it says of the statement is
  taken from that text (`location_isIn_of_scan`).  What the scanner has to know for this is how many
  lines are behind it and where the characters in its hands come from (`Scanner.Traced`).
-/
import SolidExport.Proofs.Anatomy.Turn
import SolidExport.Proofs.Line.Count

namespace SolidExport

open Outcome (bind_error foldlM_done foldlM_error)
open Source (lineEnds lineEnds_append countLine_eq)

/-! ## Places in a text -/

/-- `l.IsIn text` — the place `l` is in a text: on one of its lines, with a tag and a signature made
    of its characters in their order.  A body that is left open is named by the brace that is
    missing. -/
structure Location.IsIn (l : Location) (text : List Char) : Prop where
  line_pos : 1 ≤ l.line
  line_le : l.line ≤ 1 + (lineEnds text : Nat)
  tag : l.tag = Signature.tagOf l.signature
  signature : l.signature = "\x7d" ∨ l.signature.toList.Sublist text

theorem Location.IsIn.append {l : Location} {text : List Char} (h : l.IsIn text)
    (more : List Char) : l.IsIn (text ++ more) := by
  refine ⟨h.line_pos, ?_, h.tag, h.signature.imp_right fun hsub => ?_⟩
  · have hle := h.line_le
    rw [lineEnds_append]
    omega
  · exact hsub.trans (List.sublist_append_left text more)

/-- `m.held` — the characters of an open string, or of what may turn out to be a comment, that may
    still go into the statement. -/
def Mode.held : Mode → List Char
  | .slash => ['/']
  | .string literal _ => literal.toList
  | _ => []

/-- `m.IsOpenedBy line` — if the scanner is in a comment, it was opened on a line up to this one.
    Its fault would name that line. -/
def Mode.IsOpenedBy (line : Nat) : Mode → Prop
  | .blockComment opened _ => 1 ≤ opened ∧ opened ≤ line
  | _ => True

namespace Scanner

/-- `Holds done s` — what the scanner `s` has in its hands comes from the text `done` behind it: the
    line of an open comment, and the characters of the statement that is begun. -/
structure Holds (done : List Char) (s : Scanner) : Prop where
  opened : s.mode.IsOpenedBy s.line
  held : (s.buffer.toList ++ s.mode.held).Sublist done

/-- `Traced done s` — all that is known of the scanner `s` behind the text `done`: it is sound, its
    line is one more than the line ends of `done`, and what it holds comes from there.  Each
    character keeps it. -/
structure Traced (done : List Char) (s : Scanner) : Prop where
  sound : Sound s
  line : s.line = 1 + lineEnds done
  holds : Holds done s

variable {s s' : Scanner} {done : List Char} {c : Char} {h : Halt}

theorem traced_init : Traced [] init := ⟨sound_init, rfl, trivial, List.Sublist.refl []⟩

theorem Traced.buffer (ht : Traced done s) : s.buffer.toList.Sublist done :=
  (List.sublist_append_left _ _).trans ht.holds.held

/-! ## One character is taken -/

/-- A scanner that is in neither a string nor a comment that may be left open holds nothing but its
    buffer. -/
theorem holds_of_buffer (hmode : s.mode = .plain ∨ s.mode = .lineComment)
    (hbuffer : s.buffer.toList.Sublist done) : Holds done s := by
  have hheld : s.mode.IsOpenedBy s.line ∧ s.mode.held = [] := by
    rcases hmode with hmode | hmode
    · rw [hmode]
      exact ⟨trivial, rfl⟩
    · rw [hmode]
      exact ⟨trivial, rfl⟩
  refine ⟨hheld.1, ?_⟩
  rw [hheld.2, List.append_nil]
  exact hbuffer

theorem buffer_endStatement (s : Scanner) (opensBody : Bool) :
    (s.endStatement opensBody).buffer = "" := by
  obtain ⟨warnings, dropping, statements, hend, -⟩ := endStatement_cases s opensBody
  rw [hend]

/-- A glyph `c` empties the buffer, leaves it or goes into it, so the buffer still comes from the
    text behind the scanner. -/
theorem sublist_glyph (hc : c ≠ '"') (hbuffer : s.buffer.toList.Sublist done)
    (hstep : s.glyph c = .ok s') : s'.buffer.toList.Sublist (done ++ [c]) := by
  have hleft : s.buffer.toList.Sublist (done ++ [c]) :=
    hbuffer.trans (List.sublist_append_left done [c])
  have hend : ∀ opensBody, (s.endStatement opensBody).buffer.toList.Sublist (done ++ [c]) := by
    intro opensBody
    rw [buffer_endStatement]
    exact List.nil_sublist _
  have hput : s.put (.glyph c hc) = .ok s' := hstep
  rcases put_cases hput with ⟨parens, -, -, rfl⟩ | ⟨-, d, hd, -, hcases⟩
  · show (s.buffer ++ String.ofList [c]).toList.Sublist _
    rw [String.toList_append, String.toList_ofList]
    exact hbuffer.append (List.Sublist.refl [c])
  · rcases hcases with ⟨-, rfl⟩ | ⟨-, -, rfl⟩ | ⟨-, -, level, -, rfl⟩
    · split
      · exact hleft
      · exact hend false
    · exact hend true
    · exact hleft

theorem buffer_mark (s : Scanner) : s.mark.buffer = s.buffer := by rw [mark_eq]

theorem holds_plain (hmode : s.mode = .plain) (hbuffer : s.buffer.toList.Sublist done)
    (hstep : s.plain c = .ok s') : Holds (done ++ [c]) s' := by
  have hleft : s.buffer.toList.Sublist (done ++ [c]) :=
    hbuffer.trans (List.sublist_append_left done [c])
  unfold plain at hstep
  split at hstep
  · rename_i hc
    obtain rfl := Except.ok.inj hstep
    refine ⟨trivial, ?_⟩
    show (s.mark.buffer.toList ++ ['"']).Sublist _
    rw [buffer_mark, hc]
    exact hbuffer.append (List.Sublist.refl ['"'])
  · rename_i hquote
    split at hstep
    · rename_i hc
      obtain rfl := Except.ok.inj hstep
      refine ⟨trivial, ?_⟩
      show (s.buffer.toList ++ ['/']).Sublist _
      rw [hc]
      exact hbuffer.append (List.Sublist.refl ['/'])
    · split at hstep
      · obtain rfl := Except.ok.inj hstep
        rw [countLine_eq]
        exact holds_of_buffer (Or.inl hmode) hleft
      · have hput : s.put (.glyph c hquote) = .ok s' := hstep
        exact holds_of_buffer (Or.inl ((put_frame hput).1.trans hmode))
          (sublist_glyph hquote hbuffer hstep)

theorem buffer_loneSlash (s : Scanner) : s.loneSlash.buffer = s.buffer.push '/' := by
  unfold loneSlash push
  rw [mark_eq]

theorem mode_loneSlash (s : Scanner) : s.loneSlash.mode = .plain := by
  unfold loneSlash push
  rw [mark_eq]

/-- A slash that opened no comment has become a character of the statement, and all that was known
    is still known. -/
theorem Traced.loneSlash (ht : Traced done s) (hmode : s.mode = .slash) :
    Traced done s.loneSlash := by
  have hheld := ht.holds.held
  rw [hmode] at hheld
  refine ⟨ht.sound.loneSlash, (line_loneSlash s).trans ht.line, ?_⟩
  refine holds_of_buffer (Or.inl (mode_loneSlash s)) ?_
  rw [buffer_loneSlash, String.toList_push]
  exact hheld

/-- In a string each character is held, and behind the last one they go into the statement. -/
theorem holds_string (ht : Traced done s) {literal : String} {escaped : Bool}
    (hmode : s.mode = .string literal escaped) (hstep : s.step c = .ok s') :
    Holds (done ++ [c]) s' := by
  have hheld : (s.buffer.toList ++ (literal.push c).toList).Sublist (done ++ [c]) := by
    have hbefore := ht.holds.held
    rw [hmode] at hbefore
    rw [String.toList_push, ← List.append_assoc]
    exact hbefore.append (List.Sublist.refl [c])
  unfold step at hstep
  rw [hmode] at hstep
  dsimp only at hstep
  rw [countLine_eq] at hstep
  split at hstep
  · obtain rfl := Except.ok.inj hstep
    exact ⟨trivial, hheld⟩
  · split at hstep
    · obtain rfl := Except.ok.inj hstep
      exact ⟨trivial, hheld⟩
    · split at hstep
      · obtain rfl := Except.ok.inj hstep
        refine holds_of_buffer (Or.inl rfl) ?_
        show (s.buffer ++ literal.push c).toList.Sublist _
        rw [String.toList_append]
        exact hheld
      · obtain rfl := Except.ok.inj hstep
        exact ⟨trivial, hheld⟩

/-- In a comment nothing more is held: a character changes neither the buffer nor the line where the
    comment was opened. -/
theorem holds_comment (ht : Traced done s)
    (hmode : s.mode = .lineComment ∨ ∃ opened star, s.mode = .blockComment opened star)
    (hstep : s.step c = .ok s') : Holds (done ++ [c]) s' := by
  have hleft : s.buffer.toList.Sublist (done ++ [c]) :=
    ht.buffer.trans (List.sublist_append_left done [c])
  unfold step at hstep
  rcases hmode with hmode | ⟨opened, star, hmode⟩
  · rw [hmode] at hstep
    dsimp only at hstep
    split at hstep
    · obtain rfl := Except.ok.inj hstep
      rw [countLine_eq]
      exact holds_of_buffer (Or.inl rfl) hleft
    · obtain rfl := Except.ok.inj hstep
      exact holds_of_buffer (Or.inr hmode) hleft
  · have hopened := ht.holds.opened
    rw [hmode] at hstep hopened
    dsimp only at hstep
    split at hstep
    · obtain rfl := Except.ok.inj hstep
      exact holds_of_buffer (Or.inl rfl) hleft
    · obtain rfl := Except.ok.inj hstep
      rw [countLine_eq]
      refine ⟨⟨hopened.1, Nat.le_trans hopened.2 (Nat.le_add_right _ _)⟩, ?_⟩
      simpa [Mode.held] using hleft

/-- Behind a slash a comment is opened on this line, or the slash was a character of the
    statement. -/
theorem holds_slash (ht : Traced done s) (hmode : s.mode = .slash) (hstep : s.step c = .ok s') :
    Holds (done ++ [c]) s' := by
  have hleft : s.buffer.toList.Sublist (done ++ [c]) :=
    ht.buffer.trans (List.sublist_append_left done [c])
  unfold step at hstep
  rw [hmode] at hstep
  dsimp only at hstep
  split at hstep
  · obtain rfl := Except.ok.inj hstep
    exact holds_of_buffer (Or.inr rfl) hleft
  · split at hstep
    · obtain rfl := Except.ok.inj hstep
      refine ⟨⟨ht.sound.lines.line_pos, Nat.le_refl _⟩, ?_⟩
      simpa [Mode.held] using hleft
    · exact holds_plain (mode_loneSlash s) (ht.loneSlash hmode).buffer hstep

/-- **The step lemma.**  A scanner that takes a character still knows where it is, and holds nothing
    that is not in the text. -/
theorem Traced.step (ht : Traced done s) (hstep : s.step c = .ok s') : Traced (done ++ [c]) s' := by
  have hline : s'.line = s.line + lineEnds [c] := by
    have hadvances := advances_step s c
    rw [hstep] at hadvances
    exact hadvances
  have hholds : Holds (done ++ [c]) s' := by
    cases hmode : s.mode with
    | plain =>
      have hplain : s.step c = s.plain c := by rw [Scanner.step, hmode]
      exact holds_plain hmode ht.buffer (hplain ▸ hstep)
    | slash => exact holds_slash ht hmode hstep
    | lineComment => exact holds_comment ht (Or.inl hmode) hstep
    | blockComment opened star => exact holds_comment ht (Or.inr ⟨opened, star, hmode⟩) hstep
    | string literal escaped => exact holds_string ht hmode hstep
  refine ⟨ht.sound.step hstep, ?_, hholds⟩
  rw [hline, ht.line, lineEnds_append, Nat.add_assoc]

/-- **The run lemma.**  From the first character on, a scanner that has read the text `cs` is traced
    in it.  By induction from the end, with the step lemma. -/
theorem traced_of_run {cs : List Char} (hrun : cs.foldlM Scanner.step init = .ok s) : Traced cs s :=
  foldlM_done (fun _ _ _ _ ht hstep => ht.step hstep) traced_init hrun

/-! ## The scanner stops -/

/-- `Stops s cs f` — the scanner `s` stops in front of the characters `cs` with the fault `f`.  At
    the end of the text there are none.  These are all faults of a scan, each with its place. -/
inductive Stops (s : Scanner) : List Char → Fault → Prop where
  | bareBody (hbuffer : s.buffer = "") : Stops s ['\x7b']
      (.located (Signature.location s.line "\x7b") .bodyWithoutStatement)
  | bareBrace (hlevel : s.level = 0) : Stops s ['\x7d']
      (.located (Signature.location s.line "\x7d") .unbalancedBrace)
  | bareParenthesis (hparens : s.parens = 0) : Stops s [')']
      (.located (Signature.location s.line (s.buffer.push ')')) .unbalancedParenthesis)
  | brokenStatement (hbuffer : s.buffer ≠ "") : Stops s ['\x7d']
      (.located (Signature.location s.startLine s.buffer) .missingSemicolon)
  | openStatement (hbuffer : s.buffer ≠ "") : Stops s []
      (.located (Signature.location s.startLine s.buffer) .unterminatedStatement)
  | openBody (hlevel : s.level ≠ 0) : Stops s []
      (.located (Signature.location s.line "\x7d") (.missingBraces s.level))
  | openComment {opened : Nat} {star : Bool} (hmode : s.mode = .blockComment opened star) :
      Stops s [] (.located (Signature.location opened s.buffer) .unterminatedComment)
  | openString {literal : String} {escaped : Bool} (hmode : s.mode = .string literal escaped) :
      Stops s [] (.located (Signature.location s.line s.buffer) .unterminatedString)

theorem stops_of_glyph (hstep : s.glyph c = .error h) : s.Stops [c] h.fault := by
  unfold glyph at hstep
  split at hstep
  · exact nomatch hstep
  · split at hstep
    · rename_i hc
      unfold openBrace at hstep
      split at hstep
      · rename_i hbuffer
        rw [hc.2, ← Except.error.inj hstep]
        exact .bareBody (by simpa using hbuffer)
      · exact nomatch hstep
    · split at hstep
      · rename_i hc
        rw [hc.2]
        unfold closeBrace at hstep
        split at hstep
        · split at hstep
          · rename_i hlevel
            rw [← Except.error.inj hstep]
            exact .bareBrace hlevel
          · exact nomatch hstep
        · rename_i hbuffer
          rw [← Except.error.inj hstep]
          exact .brokenStatement (ne_empty_of_not_isEmpty hbuffer)
      · split at hstep
        · exact nomatch hstep
        · split at hstep
          · rename_i hc
            split at hstep
            · rename_i hparens
              rw [← Except.error.inj hstep, hc]
              exact .bareParenthesis hparens
            · exact nomatch hstep
          · exact nomatch hstep

theorem stops_of_plain (hstep : s.plain c = .error h) : s.Stops [c] h.fault := by
  unfold plain at hstep
  split at hstep
  · exact nomatch hstep
  · split at hstep
    · exact nomatch hstep
    · split at hstep
      · exact nomatch hstep
      · exact stops_of_glyph hstep

theorem stops_of_close (hclose : s.close = .error h) : s.Stops [] h.fault := by
  unfold close at hclose
  split at hclose
  · rename_i hbuffer
    rw [← Except.error.inj hclose]
    exact .openStatement (by simpa using hbuffer)
  · split at hclose
    · rename_i hlevel
      rw [← Except.error.inj hclose]
      exact .openBody hlevel
    · exact nomatch hclose

/-- **All that can stop a scanner.**  A slash that it was behind is a character by then, so it is
    the scanner `m` behind that slash that stops. -/
theorem Traced.stops_of_step (ht : Traced done s) (hstep : s.step c = .error h) :
    ∃ m, Traced done m ∧ m.Stops [c] h.fault := by
  unfold Scanner.step at hstep
  split at hstep
  · exact ⟨s, ht, stops_of_plain hstep⟩
  · rename_i hmode
    split at hstep
    · exact nomatch hstep
    · split at hstep
      · exact nomatch hstep
      · exact ⟨s.loneSlash, ht.loneSlash hmode, stops_of_plain hstep⟩
  · split at hstep
    · exact nomatch hstep
    · exact nomatch hstep
  · split at hstep
    · exact nomatch hstep
    · exact nomatch hstep
  · dsimp only at hstep
    split at hstep
    · exact nomatch hstep
    · split at hstep
      · exact nomatch hstep
      · split at hstep
        · exact nomatch hstep
        · exact nomatch hstep

theorem Traced.stops_of_finish (ht : Traced done s) (hfinish : s.finish = .error h) :
    ∃ m, Traced done m ∧ m.Stops [] h.fault := by
  unfold Scanner.finish at hfinish
  split at hfinish
  · exact ⟨s, ht, stops_of_close hfinish⟩
  · exact ⟨s, ht, stops_of_close hfinish⟩
  · rename_i hmode
    exact ⟨s.loneSlash, ht.loneSlash hmode, stops_of_close hfinish⟩
  · rename_i hmode
    refine ⟨s, ht, ?_⟩
    rw [← Except.error.inj hfinish]
    exact .openComment hmode
  · rename_i hmode
    refine ⟨s, ht, ?_⟩
    rw [← Except.error.inj hfinish]
    exact .openString hmode

/-! ## What is named -/

/-- A place that the scanner names is one in the text behind it and the characters it stops at. -/
theorem Traced.isIn (ht : Traced done s) {line : Nat} (hpos : 1 ≤ line) (hle : line ≤ s.line)
    {next : List Char} {signature : String}
    (hsignature : signature = "\x7d" ∨ signature.toList.Sublist (done ++ next)) :
    (Signature.location line signature).IsIn (done ++ next) := by
  have hline := ht.line
  refine ⟨?_, ?_, rfl, hsignature⟩
  · show (1 : Int) ≤ line
    omega
  · show (line : Int) ≤ 1 + (lineEnds (done ++ next) : Nat)
    rw [lineEnds_append]
    omega

/-- **A scanner that stops names a place in the text** it has read, up to the character in front of
    it. -/
theorem Traced.isIn_of_stops (ht : Traced done s) {next : List Char} {f : Fault}
    (hstops : s.Stops next f) : ∃ l, f.location = some l ∧ l.IsIn (done ++ next) := by
  have hpos : 1 ≤ s.line := ht.sound.lines.line_pos
  have hstart : s.startLine ≤ s.line := ht.sound.lines.start_le
  have hbegun : s.buffer ≠ "" → 1 ≤ s.startLine := fun hbuffer => ht.sound.begun (Or.inl hbuffer)
  have hbuffer : ∀ next, s.buffer.toList.Sublist (done ++ next) :=
    fun next => ht.buffer.trans (List.sublist_append_left done next)
  cases hstops with
  | bareBody =>
    exact ⟨_, rfl, ht.isIn hpos (Nat.le_refl _) (Or.inr (List.sublist_append_right done _))⟩
  | bareBrace => exact ⟨_, rfl, ht.isIn hpos (Nat.le_refl _) (Or.inl rfl)⟩
  | bareParenthesis =>
    refine ⟨_, rfl, ht.isIn hpos (Nat.le_refl _) (Or.inr ?_)⟩
    rw [String.toList_push]
    exact ht.buffer.append (List.Sublist.refl _)
  | brokenStatement hne => exact ⟨_, rfl, ht.isIn (hbegun hne) hstart (Or.inr (hbuffer _))⟩
  | openStatement hne => exact ⟨_, rfl, ht.isIn (hbegun hne) hstart (Or.inr (hbuffer _))⟩
  | openBody => exact ⟨_, rfl, ht.isIn hpos (Nat.le_refl _) (Or.inl rfl)⟩
  | openComment hmode =>
    have hopened := ht.holds.opened
    rw [hmode] at hopened
    exact ⟨_, rfl, ht.isIn hopened.1 hopened.2 (Or.inr (hbuffer _))⟩
  | openString => exact ⟨_, rfl, ht.isIn hpos (Nat.le_refl _) (Or.inr (hbuffer _))⟩

end Scanner

/-- **A text that is refused is refused at one of its places**, with a signature made of its
    characters. -/
theorem Statement.location_isIn_of_scan {text : String} {f : Fault}
    (h : (Statement.scan text).result = .error f) :
    ∃ l, f.location = some l ∧ l.IsIn text.toList := by
  rw [scan_eq] at h
  cases hrest : Scanner.init.rest text.toList with
  | ok s => rw [hrest] at h; exact nomatch h
  | error halt =>
    rw [hrest] at h
    obtain rfl := Except.error.inj h
    rcases bind_error hrest with hrun | ⟨s, hrun, hfinish⟩
    · -- stopped at a character
      obtain ⟨before, c, after, s, htext, hbefore, hc⟩ := foldlM_error hrun
      obtain ⟨m, hm, hstops⟩ := (Scanner.traced_of_run hbefore).stops_of_step hc
      obtain ⟨l, hl, hin⟩ := hm.isIn_of_stops hstops
      refine ⟨l, hl, ?_⟩
      have hsplit : text.toList = (before ++ [c]) ++ after := by simpa using htext
      rw [hsplit]
      exact hin.append after
    · -- stopped at the end
      obtain ⟨m, hm, hstops⟩ := (Scanner.traced_of_run hrun).stops_of_finish hfinish
      obtain ⟨l, hl, hin⟩ := hm.isIn_of_stops hstops
      rw [List.append_nil] at hin
      exact ⟨l, hl, hin⟩

end SolidExport
