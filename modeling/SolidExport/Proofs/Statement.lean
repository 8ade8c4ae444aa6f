/-
  What a scan gives can be nested.

  If a text can be scanned, the levels of its statements nest, their lines are in order, and in each
  signature strings are closed and parentheses balanced (`scan_can_nest`).  So nothing but a signature
  that cannot be read keeps the statements from becoming a tree.

  All of this follows from what the scanner knows of itself at each character (`Scanner.Sound`).  The
  levels need care where a disabled statement is dropped: from then on it is the level of that
  statement that must follow the last statement kept, and the bodies open inside it do not count
  (`Scanner.Levels`).  For the parentheses a text is cut into chunks, a chunk being a character or a
  whole string, so that a parenthesis in a string is none.
-/
import Mathlib.Algebra.Ring.Int.Defs
import SolidExport.Proofs.Node.Outline
import SolidExport.Proofs.Source.Scan

namespace SolidExport

open Outcome (bind_ok foldlM_ok)
open Source (Mark countLine_eq)
open Statement (Nests lastLevel nests_append lastLevel_append)

/-! ## Parentheses outside strings -/

/-- A chunk of a text: a character outside strings, or a whole string with its quotes. -/
inductive Chunk where
  | glyph (c : Char) (free : c ≠ '"')
  | string (marks : List Mark)

namespace Chunk

def chars : Chunk → List Char
  | .glyph c _ => [c]
  | .string marks => '"' :: (marks.flatMap Mark.chars ++ ['"'])

/-- `rise k` — how many parentheses more are open behind the chunk `k` than before it.  Those in a
    string do not count. -/
def rise : Chunk → Int
  | .glyph c _ => if c = '(' then 1 else if c = ')' then -1 else 0
  | .string _ => 0

/-- `depth chunks` — how many parentheses are open behind some chunks; negative if more are closed
    than opened. -/
def depth (chunks : List Chunk) : Int := (chunks.map rise).sum

end Chunk

/-- `LeavesOpen text count` — the strings of the text are closed, no parenthesis outside them is
    closed before it is opened, and `count` of them are left open. -/
def LeavesOpen (text : List Char) (count : Nat) : Prop :=
  ∃ chunks : List Chunk, text = chunks.flatMap Chunk.chars ∧
    (∀ front, front <+: chunks → 0 ≤ Chunk.depth front) ∧ Chunk.depth chunks = count

/-- `IsBalanced text` — the strings of the text are closed, and the parentheses outside them are
    balanced.  This is what a signature is like when it is recorded. -/
def IsBalanced (text : String) : Prop := LeavesOpen text.toList 0

namespace LeavesOpen

theorem nil : LeavesOpen [] 0 := by
  refine ⟨[], rfl, fun front hfront => ?_, rfl⟩
  rw [List.prefix_nil.mp hfront]
  exact Int.le_refl 0

/-- One more chunk opens a parenthesis, closes one, or does neither, and the count goes with it. -/
theorem append {text : List Char} {count count' : Nat} (h : LeavesOpen text count) (k : Chunk)
    (hcount : (count' : Int) = count + k.rise) : LeavesOpen (text ++ k.chars) count' := by
  obtain ⟨chunks, rfl, hfronts, hdepth⟩ := h
  have hall : Chunk.depth (chunks ++ [k]) = count' := by
    have hsum : Chunk.depth (chunks ++ [k]) = Chunk.depth chunks + k.rise := by simp [Chunk.depth]
    rw [hsum, hdepth, hcount]
  refine ⟨chunks ++ [k], by simp, fun front hfront => ?_, hall⟩
  rcases List.prefix_concat_iff.mp hfront with rfl | hfront
  · omega
  · exact hfronts front hfront

/-- Modifiers in front of a text have no part in which parentheses it leaves open. -/
theorem dropModifiers {text : List Char} {count : Nat} (h : LeavesOpen text count) :
    LeavesOpen (text.dropWhile Scanner.isModifier) count := by
  obtain ⟨chunks, rfl, hfronts, hdepth⟩ := h
  induction chunks with
  | nil => exact ⟨[], rfl, hfronts, hdepth⟩
  | cons k chunks ih =>
    cases k with
    | string marks => exact ⟨.string marks :: chunks, rfl, hfronts, hdepth⟩
    | glyph c hc =>
      by_cases hmodifier : Scanner.isModifier c = true
      · -- a modifier is no parenthesis, so it counts in no prefix
        have hrise : (Chunk.glyph c hc).rise = 0 := by
          have hopen : c ≠ '(' := by rintro rfl; exact absurd hmodifier (by decide)
          have hclose : c ≠ ')' := by rintro rfl; exact absurd hmodifier (by decide)
          simp [Chunk.rise, hopen, hclose]
        have hdrop : ∀ more, Chunk.depth (.glyph c hc :: more) = Chunk.depth more := by
          intro more
          simp [Chunk.depth, hrise]
        have hrest := ih
          (fun front hfront => by
            rw [← hdrop front]
            exact hfronts _ (List.cons_prefix_cons.mpr ⟨rfl, hfront⟩))
          (by rw [← hdrop chunks]; exact hdepth)
        have htext : ((Chunk.glyph c hc :: chunks).flatMap Chunk.chars).dropWhile Scanner.isModifier
            = (chunks.flatMap Chunk.chars).dropWhile Scanner.isModifier := by
          rw [List.flatMap_cons]
          exact List.dropWhile_cons_of_pos hmodifier
        rw [htext]
        exact hrest
      · refine ⟨.glyph c hc :: chunks, ?_, hfronts, hdepth⟩
        rw [List.flatMap_cons]
        exact List.dropWhile_cons_of_neg hmodifier

end LeavesOpen

/-- `IsOpenString literal escaped` — what has been read of a string that is still open.  It is
    `escaped` if the last character is a backslash that waits for the one it is for. -/
def IsOpenString (literal : List Char) (escaped : Bool) : Prop :=
  ∃ marks : List Mark, literal = '"' :: (marks.flatMap Mark.chars ++ if escaped then ['\\'] else [])

namespace IsOpenString

variable {literal : String}

theorem escaped (h : IsOpenString literal.toList true) (c : Char) :
    IsOpenString (literal.push c).toList false := by
  obtain ⟨marks, hmarks⟩ := h
  refine ⟨marks ++ [.escaped c], ?_⟩
  rw [String.toList_push, hmarks]
  simp [Mark.chars]

theorem backslash (h : IsOpenString literal.toList false) :
    IsOpenString (literal.push '\\').toList true := by
  obtain ⟨marks, hmarks⟩ := h
  refine ⟨marks, ?_⟩
  rw [String.toList_push, hmarks]
  simp

theorem bare (h : IsOpenString literal.toList false) {c : Char} (hquote : c ≠ '"')
    (hslash : c ≠ '\\') : IsOpenString (literal.push c).toList false := by
  obtain ⟨marks, hmarks⟩ := h
  refine ⟨marks ++ [.bare c ⟨hquote, hslash⟩], ?_⟩
  rw [String.toList_push, hmarks]
  simp [Mark.chars]

end IsOpenString

/-- `m.IsString` — whether the scanner is in a string, so that braces and parentheses mean
    nothing. -/
def Mode.IsString : Mode → Prop
  | .string .. => True
  | _ => False

namespace Scanner

/-! ## What the scanner knows -/

/-- `Levels level dropping done` — what is known of the levels.  The one at which the next statement
    would be kept may follow the last of `done`: this is the current `level` or, while a body is
    dropped, that of the statement that is dropped. -/
structure Levels (level : Nat) (dropping : Option Nat) (done : List Statement) : Prop where
  nests : Nests done
  bound : ((dropping.getD level : Nat) : Int) ≤ lastLevel done + 1
  inside : ∀ k ∈ dropping, k < level

/-- `Lines line startLine done` — what is known of the lines.  Those of the statements `done` are in
    order, none is behind `startLine`, where the buffer begins, and that one is not behind the
    current `line`. -/
structure Lines (line startLine : Nat) (done : List Statement) : Prop where
  line_pos : 1 ≤ line
  start_le : startLine ≤ line
  done_le : ∀ s ∈ done, 1 ≤ s.line ∧ s.line ≤ startLine
  sorted : done.Pairwise fun a b => a.line ≤ b.line

/-- `Sound s` — what the scanner `s` knows of itself: what the statements and the open text are
    like, whatever has been read so far. -/
structure Sound (s : Scanner) : Prop where
  levels : Levels s.level s.dropping s.statements.toList
  lines : Lines s.line s.startLine s.statements.toList
  begun : s.buffer ≠ "" ∨ s.mode.IsString → 1 ≤ s.startLine
  buffer : LeavesOpen s.buffer.toList s.parens
  literal : ∀ literal escaped, s.mode = .string literal escaped → IsOpenString literal.toList escaped
  balanced : ∀ t ∈ s.statements.toList, IsBalanced t.signature

variable {s s' : Scanner} {c : Char}

theorem sound_init : Sound init where
  levels := ⟨Statement.nests_nil, Int.le_refl 0, fun k hk => nomatch hk⟩
  lines := ⟨Nat.le_refl 1, Nat.zero_le 1, fun t ht => absurd ht List.not_mem_nil, List.Pairwise.nil⟩
  begun := by
    rintro (hbuffer | hstring)
    · exact absurd rfl hbuffer
    · exact hstring.elim
  buffer := .nil
  literal := fun _ _ hmode => nomatch hmode
  balanced := fun t ht => absurd ht List.not_mem_nil

/-! ## Lines -/

theorem Lines.later {line line' startLine : Nat} {done : List Statement}
    (h : Lines line startLine done) (hline : line ≤ line') : Lines line' startLine done :=
  ⟨Nat.le_trans h.line_pos hline, Nat.le_trans h.start_le hline, h.done_le, h.sorted⟩

/-- `markedLine s` — the line that the buffer begins on once it has begun: the current one if it is
    empty so far, since a statement begins with its first character that is kept. -/
def markedLine (s : Scanner) : Nat := if s.buffer.isEmpty then s.line else s.startLine

theorem mark_eq (s : Scanner) : s.mark = { s with startLine := s.markedLine } := by
  unfold mark markedLine
  split
  · rfl
  · rfl

theorem Sound.marked_pos (h : Sound s) : 1 ≤ s.markedLine := by
  unfold markedLine
  split
  · exact h.lines.line_pos
  · rename_i hbuffer
    exact h.begun (Or.inl (by simpa using hbuffer))

/-- A buffer that begins here begins behind all statements that were recorded. -/
theorem Sound.lines_marked (h : Sound s) : Lines s.line s.markedLine s.statements.toList := by
  have hlines := h.lines
  unfold markedLine
  split
  · refine ⟨hlines.line_pos, Nat.le_refl _, fun t ht => ?_, hlines.sorted⟩
    have hdone := hlines.done_le t ht
    have hstart := hlines.start_le
    omega
  · exact hlines

/-- One more statement that begins on the marked line keeps the lines in order. -/
theorem Lines.append {line startLine : Nat} {done : List Statement} (h : Lines line startLine done)
    (hstart : 1 ≤ startLine) {t : Statement} (ht : t.line = startLine) :
    Lines line startLine (done ++ [t]) := by
  refine ⟨h.line_pos, h.start_le, fun a ha => ?_, ?_⟩
  · rcases List.mem_append.mp ha with ha | ha
    · exact h.done_le a ha
    · rw [List.mem_singleton.mp ha, ht]
      omega
  · refine List.pairwise_append.mpr ⟨h.sorted, List.pairwise_singleton _ _, fun a ha b hb => ?_⟩
    rw [List.mem_singleton.mp hb, ht]
    exact (h.done_le a ha).2

/-! ## Levels -/

section Levels

variable {level : Nat} {dropping : Option Nat} {done : List Statement}

/-- A statement that is recorded follows the last one: its level is at most one deeper. -/
theorem Levels.append (h : Levels level none done) {t : Statement} (ht : t.level = level)
    {level' : Nat} (hlevel : level' ≤ level + 1) : Levels level' none (done ++ [t]) := by
  have hbound : (level : Int) ≤ lastLevel done + 1 := h.bound
  refine ⟨nests_append.mpr ⟨h.nests, ?_⟩, ?_, fun k hk => nomatch hk⟩
  · rw [ht]
    exact ⟨by omega, hbound⟩
  · rw [lastLevel_append, ht]
    show (level' : Int) ≤ level + 1
    omega

/-- Inside a statement that is being dropped, a body may be opened as deep as one likes: nothing is
    recorded there. -/
theorem Levels.deeper {k : Nat} (h : Levels level (some k) done) {level' : Nat}
    (hlevel : level ≤ level') : Levels level' (some k) done := by
  refine ⟨h.nests, h.bound, fun j hj => ?_⟩
  have hinside := h.inside j hj
  omega

/-- The body of a disabled statement is opened, and the level outside of it is remembered. -/
theorem Levels.drop (h : Levels level none done) : Levels (level + 1) (some level) done := by
  refine ⟨h.nests, h.bound, fun j hj => ?_⟩
  obtain rfl : level = j := Option.some.inj hj
  exact Nat.lt_succ_self level

/-- A body is closed, perhaps that of the statement that was being dropped.  What is recorded next
    follows the last statement again. -/
theorem Levels.close (h : Levels (level + 1) dropping done) :
    Levels level (if dropping = some level then none else dropping) done := by
  have hbound := h.bound
  split
  · -- the dropped statement ends: the next one is kept, at its level
    rename_i hdropping
    rw [hdropping] at hbound
    exact ⟨h.nests, hbound, fun j hj => nomatch hj⟩
  · rename_i hother
    refine ⟨h.nests, ?_, fun j hj => ?_⟩
    · cases dropping with
      | none =>
        change ((level + 1 : Nat) : Int) ≤ _ at hbound
        show (level : Int) ≤ _
        omega
      | some k => exact hbound
    · have hinside := h.inside j hj
      have hne : j ≠ level := by
        rintro rfl
        exact hother hj
      omega

end Levels

/-! ## Moves -/

/-- Passing over a character that is not kept leaves a scanner sound, on this line or a later
    one. -/
theorem Sound.pass (h : Sound s) {mode : Mode} {line : Nat} (hmode : ¬mode.IsString)
    (hline : s.line ≤ line) : Sound { s with mode := mode, line := line } where
  levels := h.levels
  lines := h.lines.later hline
  begun := by
    rintro (hbuffer | hstring)
    · exact h.begun (Or.inl hbuffer)
    · exact absurd hstring hmode
  buffer := h.buffer
  literal := by
    rintro literal escaped rfl
    exact absurd trivial hmode
  balanced := h.balanced

/-- A character `c` outside strings goes into the buffer, and the parentheses are counted with
    it. -/
theorem Sound.push (h : Sound s) {parens : Nat} (hc : c ≠ '"')
    (hparens : (parens : Int) = s.parens + (Chunk.glyph c hc).rise) :
    Sound ({ s with parens := parens }.push c) := by
  have hpush : { s with parens := parens }.push c
      = { s with parens := parens, startLine := s.markedLine, buffer := s.buffer.push c } := by
    unfold Scanner.push
    rw [mark_eq]
    rfl
  rw [hpush]
  refine ⟨h.levels, h.lines_marked, fun _ => h.marked_pos, ?_, h.literal, h.balanced⟩
  show LeavesOpen (s.buffer.push c).toList parens
  rw [String.toList_push]
  exact h.buffer.append (.glyph c hc) hparens

theorem Sound.openString (h : Sound s) : Sound { s.mark with mode := .string "\"" false } := by
  rw [mark_eq]
  refine ⟨h.levels, h.lines_marked, fun _ => h.marked_pos, h.buffer, ?_, h.balanced⟩
  intro literal escaped hmode
  injection hmode with hliteral hescaped
  subst hliteral hescaped
  exact ⟨[], rfl⟩

/-- A string that is read on keeps the scanner sound, as long as it is open. -/
theorem Sound.inString (h : Sound s) (hmode : s.mode.IsString) {line : Nat} (hline : s.line ≤ line)
    {literal : String} {escaped : Bool} (hopen : IsOpenString literal.toList escaped) :
    Sound { s with mode := .string literal escaped, line := line } where
  levels := h.levels
  lines := h.lines.later hline
  begun := fun _ => h.begun (Or.inr hmode)
  buffer := h.buffer
  literal := by
    intro literal' escaped' heq
    injection heq with hliteral hescaped
    subst hliteral hescaped
    exact hopen
  balanced := h.balanced

/-- A string that is closed goes into the buffer as a whole, with its two quotes. -/
theorem Sound.closeString (h : Sound s) (hmode : s.mode.IsString) {line : Nat} (hline : s.line ≤ line)
    {literal : String} (hopen : IsOpenString literal.toList false) :
    Sound { s with mode := .plain, line := line, buffer := s.buffer ++ literal.push '"' } where
  levels := h.levels
  lines := h.lines.later hline
  begun := fun _ => h.begun (Or.inr hmode)
  buffer := by
    obtain ⟨marks, hmarks⟩ := hopen
    have htext : (s.buffer ++ literal.push '"').toList
        = s.buffer.toList ++ (Chunk.string marks).chars := by
      rw [String.toList_append, String.toList_push, hmarks]
      simp [Chunk.chars]
    show LeavesOpen (s.buffer ++ literal.push '"').toList s.parens
    rw [htext]
    exact h.buffer.append (.string marks) (Int.add_zero _).symm
  literal := fun _ _ hplain => nomatch hplain
  balanced := h.balanced

/-! ## The end of a statement -/

/-- **All that ending a statement can do.**  The buffer is emptied and a body is entered or not.  The
    statement is passed over since it stands in one that is dropped, or it is dropped itself, with
    its body if it has one, or it is kept without its modifiers. -/
theorem endStatement_cases (s : Scanner) (opensBody : Bool) : ∃ warnings dropping statements,
    s.endStatement opensBody = { s with
      level := if opensBody then s.level + 1 else s.level
      buffer := ""
      dropping := dropping
      statements := statements
      warnings := warnings } ∧
    ((∃ k, s.dropping = some k ∧ dropping = some k ∧ statements = s.statements) ∨
    (s.dropping = none ∧ dropping = (if opensBody then some s.level else none) ∧
      statements = s.statements) ∨
    (s.dropping = none ∧ dropping = none ∧ statements = s.statements.push
      ⟨String.ofList (s.buffer.toList.dropWhile isModifier), s.level, s.startLine⟩)) := by
  obtain ⟨mode, line, level, parens, buffer, startLine, dropping, statements, warnings⟩ := s
  unfold endStatement
  cases dropping with
  | some k =>
    cases opensBody with
    | true => exact ⟨_, _, _, rfl, Or.inl ⟨k, rfl, rfl, rfl⟩⟩
    | false => exact ⟨_, _, _, rfl, Or.inl ⟨k, rfl, rfl, rfl⟩⟩
  | none =>
    dsimp only
    cases (buffer.toList.takeWhile isModifier).any disables with
    | true =>
      cases opensBody with
      | true => exact ⟨_, _, _, rfl, Or.inr (Or.inl ⟨rfl, rfl, rfl⟩)⟩
      | false => exact ⟨_, _, _, rfl, Or.inr (Or.inl ⟨rfl, rfl, rfl⟩)⟩
    | false =>
      cases opensBody with
      | true => exact ⟨_, _, _, rfl, Or.inr (Or.inr ⟨rfl, rfl, rfl⟩)⟩
      | false => exact ⟨_, _, _, rfl, Or.inr (Or.inr ⟨rfl, rfl, rfl⟩)⟩

/-- A statement ends outside parentheses and strings, so what is recorded of it is balanced. -/
theorem Sound.endStatement (h : Sound s) (hparens : s.parens = 0) (hbuffer : s.buffer ≠ "")
    (opensBody : Bool) : Sound (s.endStatement opensBody) := by
  have hlevel : s.level ≤ (if opensBody then s.level + 1 else s.level) ∧
      (if opensBody then s.level + 1 else s.level) ≤ s.level + 1 := by
    split
    · omega
    · omega
  have hstart : 1 ≤ s.startLine := h.begun (Or.inl hbuffer)
  have hlevels := h.levels
  have hbalanced : LeavesOpen s.buffer.toList 0 := hparens ▸ h.buffer
  obtain ⟨warnings, dropping, statements, heq, hcases⟩ := endStatement_cases s opensBody
  have hempty : LeavesOpen "".toList s.parens := by
    rw [hparens]
    exact .nil
  have hbegun : ("" : String) ≠ "" ∨ s.mode.IsString → 1 ≤ s.startLine := fun _ => hstart
  have hliteral : ∀ literal escaped, s.mode = .string literal escaped →
      IsOpenString literal.toList escaped := h.literal
  rw [heq]
  rcases hcases with ⟨k, hk, rfl, rfl⟩ | ⟨hnone, rfl, rfl⟩ | ⟨hnone, rfl, rfl⟩
  · -- inside a dropped statement only the level may grow
    rw [hk] at hlevels
    exact ⟨hlevels.deeper hlevel.1, h.lines, hbegun, hempty, hliteral, h.balanced⟩
  · -- a disabled statement: with a body, the dropping begins here
    rw [hnone] at hlevels
    refine ⟨?_, h.lines, hbegun, hempty, hliteral, h.balanced⟩
    cases opensBody with
    | true => exact hlevels.drop
    | false => exact hlevels
  · -- one more statement
    rw [hnone] at hlevels
    refine ⟨?_, ?_, hbegun, hempty, hliteral, ?_⟩
    · dsimp only
      rw [Array.toList_push]
      exact hlevels.append rfl hlevel.2
    · dsimp only
      rw [Array.toList_push]
      exact h.lines.append hstart rfl
    · intro t ht
      dsimp only at ht
      rw [Array.toList_push, List.mem_append, List.mem_singleton] at ht
      rcases ht with ht | rfl
      · exact h.balanced t ht
      · show LeavesOpen (String.ofList _).toList 0
        rw [String.toList_ofList]
        exact hbalanced.dropModifiers

theorem ne_empty_of_not_isEmpty {text : String} (h : ¬text.isEmpty = true) : text ≠ "" := by
  simpa using h

theorem Sound.semicolon (h : Sound s) (hparens : s.parens = 0) (hstep : s.semicolon = .ok s') :
    Sound s' := by
  unfold Scanner.semicolon at hstep
  injection hstep with hstep
  subst hstep
  split
  · exact h
  · rename_i hbuffer
    exact h.endStatement hparens (ne_empty_of_not_isEmpty hbuffer) false

theorem Sound.openBrace (h : Sound s) (hparens : s.parens = 0) (hstep : s.openBrace = .ok s') :
    Sound s' := by
  unfold Scanner.openBrace at hstep
  split at hstep
  · exact nomatch hstep
  · rename_i hbuffer
    injection hstep with hstep
    subst hstep
    exact h.endStatement hparens (ne_empty_of_not_isEmpty hbuffer) true

theorem Sound.closeBrace (h : Sound s) (hstep : s.closeBrace = .ok s') : Sound s' := by
  have hlevels := h.levels
  unfold Scanner.closeBrace at hstep
  split at hstep
  · split at hstep
    · exact nomatch hstep
    · rename_i level hlevel
      injection hstep with hstep
      subst hstep
      rw [hlevel] at hlevels
      exact ⟨hlevels.close, h.lines, h.begun, h.buffer, h.literal, h.balanced⟩
  · exact nomatch hstep

/-! ## Characters -/

theorem Sound.glyph (h : Sound s) (hc : c ≠ '"') (hstep : s.glyph c = .ok s') : Sound s' := by
  unfold Scanner.glyph at hstep
  split at hstep
  · rename_i hend
    exact h.semicolon hend.1 hstep
  · split at hstep
    · rename_i hend
      exact h.openBrace hend.1 hstep
    · split at hstep
      · exact h.closeBrace hstep
      · split at hstep
        · rename_i hopen
          injection hstep with hstep
          subst hstep hopen
          exact h.push hc rfl
        · rename_i hopen
          split at hstep
          · rename_i hclose
            split at hstep
            · exact nomatch hstep
            · rename_i parens hparens
              injection hstep with hstep
              subst hstep hclose
              have hrise : (Chunk.glyph ')' hc).rise = -1 := rfl
              refine h.push hc ?_
              rw [hparens, hrise]
              omega
          · rename_i hclose
            injection hstep with hstep
            subst hstep
            refine h.push hc ?_
            simp [Chunk.rise, hopen, hclose]

theorem not_isString_plain {mode : Mode} (h : mode = .plain) : ¬mode.IsString := by
  rw [h]
  exact id

theorem Sound.plain (h : Sound s) (hmode : s.mode = .plain) (hstep : s.plain c = .ok s') :
    Sound s' := by
  unfold Scanner.plain at hstep
  split at hstep
  · injection hstep with hstep
    subst hstep
    exact h.openString
  · rename_i hquote
    split at hstep
    · injection hstep with hstep
      subst hstep
      exact h.pass id (Nat.le_refl _)
    · split at hstep
      · injection hstep with hstep
        subst hstep
        rw [countLine_eq]
        exact h.pass (not_isString_plain hmode) (Nat.le_add_right _ _)
      · exact h.glyph hquote hstep

theorem Sound.loneSlash (h : Sound s) : Sound s.loneSlash := by
  have hplain : Sound { s with mode := .plain } := h.pass id (Nat.le_refl _)
  exact hplain.push (by decide) rfl

/-- A character in a string: it is escaped, escapes the next one, ends the string, or stands for
    itself. -/
theorem Sound.string (h : Sound s) {literal : String} {escaped : Bool}
    (hmode : s.mode = .string literal escaped) (hstep : s.step c = .ok s') : Sound s' := by
  have hopen := h.literal literal escaped hmode
  have hstring : s.mode.IsString := by
    rw [hmode]
    trivial
  unfold Scanner.step at hstep
  rw [hmode] at hstep
  dsimp only at hstep
  rw [countLine_eq] at hstep
  dsimp only at hstep
  split at hstep
  · rename_i hescaped
    injection hstep with hstep
    subst hstep hescaped
    exact h.inString hstring (Nat.le_add_right _ _) (hopen.escaped c)
  · rename_i hescaped
    obtain rfl : escaped = false := Bool.eq_false_iff.mpr hescaped
    split at hstep
    · rename_i hslash
      injection hstep with hstep
      subst hstep hslash
      exact h.inString hstring (Nat.le_add_right _ _) hopen.backslash
    · rename_i hslash
      split at hstep
      · rename_i hquote
        injection hstep with hstep
        subst hstep hquote
        exact h.closeString hstring (Nat.le_add_right _ _) hopen
      · rename_i hquote
        injection hstep with hstep
        subst hstep
        exact h.inString hstring (Nat.le_add_right _ _) (hopen.bare hquote hslash)

/-- Behind a slash a comment begins, or the slash stood for itself and goes into the buffer. -/
theorem Sound.slash (h : Sound s) (hmode : s.mode = .slash) (hstep : s.step c = .ok s') :
    Sound s' := by
  unfold Scanner.step at hstep
  rw [hmode] at hstep
  dsimp only at hstep
  split at hstep
  · injection hstep with hstep
    subst hstep
    exact h.pass id (Nat.le_refl _)
  · split at hstep
    · injection hstep with hstep
      subst hstep
      exact h.pass id (Nat.le_refl _)
    · have hslash : s.loneSlash.mode = .plain := by
        unfold Scanner.loneSlash Scanner.push
        rw [mark_eq]
      exact h.loneSlash.plain hslash hstep

/-- A comment is passed over; only its lines are counted. -/
theorem Sound.comment (h : Sound s) (hmode : s.mode = .lineComment ∨
      ∃ opened star, s.mode = .blockComment opened star) (hstep : s.step c = .ok s') : Sound s' := by
  unfold Scanner.step at hstep
  rcases hmode with hmode | ⟨opened, star, hmode⟩
  · rw [hmode] at hstep
    dsimp only at hstep
    split at hstep
    · injection hstep with hstep
      subst hstep
      rw [countLine_eq]
      exact h.pass id (Nat.le_add_right _ _)
    · injection hstep with hstep
      subst hstep
      exact h
  · rw [hmode] at hstep
    dsimp only at hstep
    split at hstep
    · injection hstep with hstep
      subst hstep
      exact h.pass id (Nat.le_refl _)
    · injection hstep with hstep
      subst hstep
      rw [countLine_eq]
      exact h.pass id (Nat.le_add_right _ _)

/-- **The step lemma.**  No character makes a scanner unsound.  One case for each mode. -/
theorem Sound.step (h : Sound s) (hstep : s.step c = .ok s') : Sound s' := by
  cases hmode : s.mode with
  | plain =>
    have hplain : s.step c = s.plain c := by rw [Scanner.step, hmode]
    exact h.plain hmode (hplain ▸ hstep)
  | slash => exact h.slash hmode hstep
  | lineComment => exact h.comment (Or.inl hmode) hstep
  | blockComment opened star => exact h.comment (Or.inr ⟨opened, star, hmode⟩) hstep
  | string literal escaped => exact h.string hmode hstep

/-! ## Whole texts -/

theorem Sound.close (h : Sound s) (hclose : s.close = .ok s') : Sound s' := by
  unfold Scanner.close at hclose
  split at hclose
  · exact nomatch hclose
  · split at hclose
    · exact nomatch hclose
    · injection hclose with hclose
      subst hclose
      exact h

theorem Sound.finish (h : Sound s) (hfinish : s.finish = .ok s') : Sound s' := by
  unfold Scanner.finish at hfinish
  split at hfinish
  · exact h.close hfinish
  · exact h.close hfinish
  · exact h.loneSlash.close hfinish
  · exact nomatch hfinish
  · exact nomatch hfinish

/-- **The run lemma.**  What a scan gives comes from a scanner that is sound, so its statements have
    all that soundness says. -/
theorem sound_of_scan {text : String} {statements : List Statement}
    (h : (Statement.scan text).result = .ok statements) :
    ∃ s, Sound s ∧ s.statements.toList = statements := by
  unfold Statement.scan at h
  cases hrun : text.toList.foldlM Scanner.step Scanner.init >>= Scanner.finish with
  | error halt => rw [hrun] at h; exact nomatch h
  | ok s =>
    rw [hrun] at h
    injection h with h
    obtain ⟨m, hsteps, hfinish⟩ := bind_ok.mp hrun
    have hm : Sound m := foldlM_ok (fun _ _ _ _ hs hstep => hs.step hstep) sound_init hsteps
    exact ⟨s, hm.finish hfinish, h⟩

end Scanner

/-! ## Signatures that cannot be read -/

/-- **All that can be wrong with a signature:** its tag, or else its parentheses.  Only the second
    fault has a location. -/
theorem Signature.read_error {line : Int} {signature : String} {f : Fault}
    (h : Signature.read line signature = .error f) :
    (isTag (tagOf signature) = false ∧ f = .unlocated (.invalidStatement line signature)) ∨
    (isTag (tagOf signature) = true ∧
      f = .located (location line signature) .unbalancedParentheses) := by
  unfold Signature.read at h
  dsimp only at h
  split at h
  · rename_i htag
    refine Or.inr ⟨htag, ?_⟩
    split at h
    · exact nomatch h
    · split at h
      · split at h
        · exact nomatch h
        · exact (Except.error.inj h).symm
      · exact (Except.error.inj h).symm
  · rename_i htag
    exact Or.inl ⟨eq_false_of_ne_true htag, (Except.error.inj h).symm⟩

/-- A signature that is refused is refused for its syntax. -/
theorem Signature.code_of_error {line : Int} {signature : String} {f : Fault}
    (h : Signature.read line signature = .error f) : f.cause.code = .csgSyntax := by
  rcases Signature.read_error h with ⟨-, rfl⟩ | ⟨-, rfl⟩
  · rfl
  · rfl

/-- **What a scan gives can be nested.**  The levels nest, from level zero on; the lines are in order
    and begin at one; strings are closed and parentheses balanced.  If the statements do not become a
    tree, the fault is one of syntax, that of the first signature that cannot be read. -/
theorem scan_can_nest {text : String} {ss : List Statement}
    (h : (Statement.scan text).result = .ok ss) :
    Nests ss ∧ (∀ s ∈ ss.head?, s.level = 0) ∧ (ss.Pairwise fun a b => a.line ≤ b.line) ∧
    (∀ s ∈ ss, 1 ≤ s.line ∧ IsBalanced s.signature) ∧
    ∀ f, Node.ofStatements ss = .error f → f.cause.code = .csgSyntax ∧
      ∃ before s after, ss = before ++ s :: after ∧ (∀ b ∈ before, b.IsReadable) ∧
        Signature.read s.line s.signature = .error f := by
  obtain ⟨scanner, hsound, rfl⟩ := Scanner.sound_of_scan h
  have hnests : Nests scanner.statements.toList := hsound.levels.nests
  refine ⟨hnests, fun s hs => ?_, hsound.lines.sorted, fun s hs => ?_, fun f hf => ?_⟩
  · generalize scanner.statements.toList = ss at hs hnests
    cases ss with
    | nil => exact nomatch hs
    | cons t ts =>
      obtain rfl : t = s := Option.some.inj hs
      have hfirst : Nests ([] ++ t :: ts) := hnests
      exact Int.le_antisymm hfirst.follows.2 hfirst.follows.1
  · exact ⟨(hsound.lines.done_le s hs).1, hsound.balanced s hs⟩
  · obtain ⟨before, s, after, hss, -, hreadable, hwrong⟩ :=
      Node.readHeads_error (Node.ofStatements_error hf)
    rw [hss] at hnests
    rcases hwrong with ⟨hlevel, -⟩ | ⟨-, hrefused⟩
    · exact absurd hnests.follows hlevel
    · exact ⟨Signature.code_of_error hrefused, before, s, after, hss, hreadable, hrefused⟩

/-- A dropped body inside a dropped body, and a signature with parentheses in a string that cannot be
    read. -/
def droppedBody : String :=
  "*a()\x7b%b()\x7bc();\x7d\x7d\n#3d(s=\")\\\"(\")\x7bcube();\x7d"

theorem scan_droppedBody : (Statement.scan droppedBody).result = .ok
    [⟨"3d(s=\")\\\"(\")", 0, 2⟩, ⟨"cube()", 1, 2⟩] := by
  rfl

theorem scan_can_nest_droppedBody :
    ∃ ss, (Statement.scan droppedBody).result = .ok ss ∧ ss.map (·.level) = [0, 1] ∧
      Nests ss ∧ (∀ s ∈ ss, IsBalanced s.signature) ∧
      ∃ f, Node.ofStatements ss = .error f ∧ f.cause.code = .csgSyntax := by
  obtain ⟨hnests, -, -, hsignatures, hfails⟩ := scan_can_nest scan_droppedBody
  have hrefused : Node.ofStatements [⟨"3d(s=\")\\\"(\")", 0, 2⟩, ⟨"cube()", 1, 2⟩]
      = .error (.unlocated (.invalidStatement 2 "3d(s=\")\\\"(\")")) :=
    (Node.ofStatements_eq _).trans rfl
  exact ⟨_, scan_droppedBody, rfl, hnests, fun s hs => (hsignatures s hs).2, _, hrefused,
    (hfails _ hrefused).1⟩

end SolidExport
