/-
  What is scanned is the anatomy of a text.

  The tokens of a body leave the scanner where it was, with the statements that are kept and a
  warning for each disabled statement added (`run_body`); while something is being dropped they add
  nothing (`run_dropped`).  If tokens are accepted, they are those of a body: what has been put so far
  is a stack of bodies that are still open, and a statement begun in the innermost (`Arranged`).

  So a text is accepted if and only if it has an anatomy, and the statements given are those it keeps,
  each on the line of its first character (`scan_keeps_true_lines`).
-/
import SolidExport.Proofs.Anatomy.Turn

namespace SolidExport

open Anatomy (Cut Token Phrase Body Occurrence Extent IsBegun lineAt tokenChars tokenChars_cons
  depth_cons)
open Outcome (bind_ok foldlM_done foldlM_cons_of_ok foldlM_append_of_ok)

/-- `w.isDrop` — whether `w` is the warning of a disabled statement.  The others are about modifiers
    and come in between. -/
def Warning.isDrop : Warning → Bool
  | .disabledStatement .. => true
  | _ => false

@[simp]
theorem isDrop_ignoredModifier (line : Int) : (Warning.ignoredModifier line).isDrop = false := rfl

@[simp]
theorem isDrop_disabledStatement (line : Int) (statement : String) :
    (Warning.disabledStatement line statement).isDrop = true := rfl

namespace Scanner

variable {s s' m : Scanner} {line : Nat → Nat}

/-- `drops s` — the warnings of disabled statements that the scanner `s` has given so far. -/
def drops (s : Scanner) : List Warning := s.warnings.toList.filter Warning.isDrop

/-- `Passed s s' level dropping statements drops` — between statements the scanner has come from `s`
    to `s'`.  It is at `level` now and drops from the level `dropping` on, if from any; it has
    recorded `statements` and given the warnings `drops` of disabled statements on the way. -/
structure Passed (s s' : Scanner) (level : Nat) (dropping : Option Nat)
    (statements : List Statement) (drops : List Warning) : Prop where
  level : s'.level = level
  parens : s'.parens = 0
  buffer : s'.buffer = ""
  dropping : s'.dropping = dropping
  statements : s'.statements.toList = s.statements.toList ++ statements
  drops : s'.drops = s.drops ++ drops

theorem Passed.trans {level level' : Nat} {dropping dropping' : Option Nat}
    {as bs : List Statement} {vs ws : List Warning} (h : Passed s m level dropping as vs)
    (h' : Passed m s' level' dropping' bs ws) :
    Passed s s' level' dropping' (as ++ bs) (vs ++ ws) where
  level := h'.level
  parens := h'.parens
  buffer := h'.buffer
  dropping := h'.dropping
  statements := by rw [h'.statements, h.statements, List.append_assoc]
  drops := by rw [h'.drops, h.drops, List.append_assoc]

/-! ## Phrases -/

theorem append_chunk_ne_empty (text : String) (k : Chunk) : text ++ String.ofList k.chars ≠ "" := by
  intro h
  have hlist := congrArg String.toList h
  rw [String.toList_append, String.toList_ofList] at hlist
  exact k.chars_ne_nil (List.append_eq_nil_iff.mp hlist).2

/-- Behind its first token a statement is read on: the tokens `ts` go into the buffer, as long as
    none of them closes a parenthesis too many or ends the statement. -/
theorem run_inner (line : Nat → Nat) (ts : List Token) (hbuffer : s.buffer ≠ "")
    (hdepth : ∀ front, front <+: ts.map Token.chunk → 0 ≤ s.parens + Chunk.depth front)
    (hinner : ∀ front k, front ++ [k] <+: ts.map Token.chunk → s.parens + Chunk.depth front = 0 →
      ¬k.IsEnd) :
    ∃ l parens : Nat, (parens : Int) = s.parens + Chunk.depth (ts.map Token.chunk) ∧
      ts.foldlM (putAt line) s = .ok { s with
        line := l
        parens := parens
        buffer := s.buffer ++ String.ofList (tokenChars ts) } := by
  induction ts generalizing s with
  | nil =>
    refine ⟨s.line, s.parens, (Int.add_zero _).symm, ?_⟩
    show Except.ok s = Except.ok { s with buffer := s.buffer ++ "" }
    rw [String.append_empty]
  | cons t ts ih =>
    have hrise : 0 ≤ (s.parens : Int) + t.chunk.rise := by
      have hone := hdepth [t.chunk] (List.cons_prefix_cons.mpr ⟨rfl, List.nil_prefix⟩)
      simpa [Chunk.depth] using hone
    obtain ⟨parens, hparens⟩ := Int.eq_ofNat_of_zero_le hrise
    have hput : putAt line s t = .ok ((s.atLine (line t.start)).taken t.chunk parens) := by
      refine put_taken hparens.symm fun hzero => ?_
      refine hinner [] t.chunk (List.cons_prefix_cons.mpr ⟨rfl, List.nil_prefix⟩) ?_
      have hzero' : s.parens = 0 := hzero
      simp [hzero', Chunk.depth]
    have hmarked : (s.atLine (line t.start)).markedLine = s.startLine :=
      if_neg fun hempty => hbuffer (by simpa [atLine] using hempty)
    obtain ⟨l, parens', hparens', hrun⟩ :=
      ih (s := (s.atLine (line t.start)).taken t.chunk parens) (append_chunk_ne_empty _ _)
        (fun front hfront => by
          have hbefore := hdepth (t.chunk :: front) (List.cons_prefix_cons.mpr ⟨rfl, hfront⟩)
          rw [depth_cons] at hbefore
          show 0 ≤ (parens : Int) + Chunk.depth front
          omega)
        (fun front k hfront hzero => by
          refine hinner (t.chunk :: front) k (List.cons_prefix_cons.mpr ⟨rfl, hfront⟩) ?_
          rw [depth_cons]
          change (parens : Int) + Chunk.depth front = 0 at hzero
          omega)
    refine ⟨l, parens', ?_, ?_⟩
    · rw [List.map_cons, depth_cons]
      change (parens' : Int) = parens + _ at hparens'
      omega
    · rw [foldlM_cons_of_ok hput, hrun]
      unfold taken
      dsimp only
      rw [hmarked, tokenChars_cons, String.ofList_append, ← String.append_assoc]
      rfl

/-- `begun s line p l` — the scanner `s` behind the statement `p`, which is read and not ended yet:
    it is on the line `l` now, and the statement began on the one that `line` gives for its first
    character. -/
def begun (s : Scanner) (line : Nat → Nat) (p : Phrase) (l : Nat) : Scanner :=
  { s with line := l, buffer := String.ofList p.chars, startLine := line p.start }

/-- All tokens of the statement `p` go into an empty buffer, and the first of them gives the line of
    the statement. -/
theorem run_phrase (line : Nat → Nat) (p : Phrase) (hparens : s.parens = 0) (hbuffer : s.buffer = "") :
    ∃ l, p.tokens.foldlM (putAt line) s = .ok (s.begun line p l) := by
  obtain ⟨t, ts, hts⟩ := List.exists_cons_of_ne_nil p.nonempty
  have hbegun := p.begun
  have hclosed := p.closed
  have hstart := Phrase.start_eq hts
  have hchars : p.chars = t.chunk.chars ++ tokenChars ts := by
    rw [Phrase.chars, hts, tokenChars_cons]
  rw [hts, List.map_cons] at hbegun hclosed
  have hrise : 0 ≤ t.chunk.rise := by
    have hone := hbegun.nonneg [t.chunk] (List.cons_prefix_cons.mpr ⟨rfl, List.nil_prefix⟩)
    simpa [Chunk.depth] using hone
  obtain ⟨parens, hrise⟩ := Int.eq_ofNat_of_zero_le hrise
  have hput : putAt line s t = .ok ((s.atLine (line t.start)).taken t.chunk parens) := by
    have hzero : (s.atLine (line t.start)).parens = 0 := hparens
    refine put_taken (by rw [hzero, hrise]; exact (Int.zero_add _).symm) fun _ => ?_
    exact hbegun.inner [] t.chunk (List.cons_prefix_cons.mpr ⟨rfl, List.nil_prefix⟩) rfl
  obtain ⟨l, parens', hparens', hrun⟩ :=
    run_inner (s := (s.atLine (line t.start)).taken t.chunk parens) line ts (append_chunk_ne_empty _ _)
      (fun front hfront => by
        have hall := hbegun.nonneg (t.chunk :: front) (List.cons_prefix_cons.mpr ⟨rfl, hfront⟩)
        rw [depth_cons, hrise] at hall
        exact hall)
      (fun front k hfront hzero => by
        refine hbegun.inner (t.chunk :: front) k (List.cons_prefix_cons.mpr ⟨rfl, hfront⟩) ?_
        rw [depth_cons, hrise]
        exact hzero)
  rw [depth_cons, hrise] at hclosed
  obtain rfl : parens' = 0 := by
    change (parens' : Int) = parens + _ at hparens'
    omega
  have hmarked : (s.atLine (line t.start)).markedLine = line t.start := if_pos (by
    show s.buffer.isEmpty = true
    rw [hbuffer]
    rfl)
  refine ⟨l, ?_⟩
  rw [hts, foldlM_cons_of_ok hput, hrun, begun, hchars, hstart, String.ofList_append]
  unfold taken
  dsimp only
  rw [hmarked, hparens]
  show Except.ok { s with
    line := l, parens := 0, startLine := line t.start
    buffer := s.buffer ++ String.ofList t.chunk.chars ++ String.ofList (tokenChars ts) } = _
  rw [hbuffer, String.empty_append, ← hparens]

/-! ## The end of a statement -/

section

variable (line) (p : Phrase) (l : Nat) (opensBody : Bool) (hparens : s.parens = 0)
include hparens

/-- Inside a statement that is dropped, the end of another one records nothing, be it disabled or
    not. -/
theorem ended_dropping {k : Nat} (hdropping : s.dropping = some k) :
    Passed s ((s.begun line p l).endStatement opensBody)
      (if opensBody then s.level + 1 else s.level) (some k) [] [] := by
  obtain ⟨mode, line', level, parens, buffer, startLine, dropping, statements, warnings⟩ := s
  dsimp only at hdropping hparens
  subst hdropping hparens
  unfold endStatement begun
  cases opensBody with
  | true => exact ⟨rfl, rfl, rfl, rfl, (List.append_nil _).symm, by simp [drops]⟩
  | false => exact ⟨rfl, rfl, rfl, rfl, (List.append_nil _).symm, by simp [drops]⟩

/-- A disabled statement is dropped, and with it its body if it has one.  Where it is not inside
    another such statement, there is a warning. -/
theorem ended_disabled (hdropping : s.dropping = none) (hdisabled : p.isDisabled = true) :
    Passed s ((s.begun line p l).endStatement opensBody)
      (if opensBody then s.level + 1 else s.level) (if opensBody then some s.level else none) []
      [.disabledStatement (line p.start) p.signature] := by
  obtain ⟨mode, line', level, parens, buffer, startLine, dropping, statements, warnings⟩ := s
  dsimp only at hdropping hparens
  subst hdropping hparens
  unfold endStatement begun
  dsimp only
  rw [String.toList_ofList]
  change (p.chars.takeWhile isModifier).any disables = true at hdisabled
  rw [hdisabled]
  cases opensBody with
  | true =>
    exact ⟨rfl, rfl, rfl, rfl, (List.append_nil _).symm,
      by simp [drops, Phrase.signature]⟩
  | false =>
    exact ⟨rfl, rfl, rfl, rfl, (List.append_nil _).symm,
      by simp [drops, Phrase.signature]⟩

/-- A statement that is neither disabled nor inside a disabled one is recorded, at the level and on
    the line where it begins. -/
theorem ended_kept (hdropping : s.dropping = none) (hdisabled : p.isDisabled = false) :
    Passed s ((s.begun line p l).endStatement opensBody)
      (if opensBody then s.level + 1 else s.level) none
      [Occurrence.statement line ⟨p, s.level⟩] [] := by
  obtain ⟨mode, line', level, parens, buffer, startLine, dropping, statements, warnings⟩ := s
  dsimp only at hdropping hparens
  subst hdropping hparens
  unfold endStatement begun
  dsimp only
  rw [String.toList_ofList]
  change (p.chars.takeWhile isModifier).any disables = false at hdisabled
  rw [hdisabled]
  cases opensBody with
  | true => exact ⟨rfl, rfl, rfl, rfl, Array.toList_push, by simp [drops]⟩
  | false => exact ⟨rfl, rfl, rfl, rfl, Array.toList_push, by simp [drops]⟩

end

/-- `endToken opensBody place` — the token that ends a statement: the brace of its body, or a
    semicolon. -/
def endToken (opensBody : Bool) (place : Nat) : Token :=
  if opensBody then .openBrace place else .semicolon place

/-- A statement `p` with the token that ends it: whatever tokens `ts` follow, they are read behind
    the end of the statement. -/
theorem run_statement (line : Nat → Nat) (p : Phrase) (opensBody : Bool) (place : Nat)
    (hparens : s.parens = 0) (hbuffer : s.buffer = "") :
    ∃ l, ∀ ts, (p.tokens ++ endToken opensBody place :: ts).foldlM (putAt line) s
      = ts.foldlM (putAt line) ((s.begun line p l).endStatement opensBody) := by
  obtain ⟨l, hrun⟩ := run_phrase line p hparens hbuffer
  have hchars : p.chars ≠ [] := fun hnil => p.nonempty (Anatomy.eq_nil_of_tokenChars hnil)
  have hempty : ¬(String.ofList p.chars).isEmpty = true := by simpa using hchars
  have hend : putAt line (s.begun line p l) (endToken opensBody place)
      = .ok ((s.begun line p (line place)).endStatement opensBody) := by
    cases opensBody with
    | true =>
      show ((s.begun line p l).atLine (line place)).glyph '\x7b' = _
      rw [glyph, if_neg (by simp), if_pos ⟨hparens, rfl⟩]
      exact if_neg hempty
    | false =>
      show ((s.begun line p l).atLine (line place)).glyph ';' = _
      rw [glyph, if_pos ⟨hparens, rfl⟩]
      exact congrArg Except.ok (if_neg hempty)
  refine ⟨line place, fun ts => ?_⟩
  rw [foldlM_append_of_ok hrun, foldlM_cons_of_ok hend]

/-- A semicolon between statements only moves the scanner to its line. -/
theorem run_semicolon (line : Nat → Nat) (place : Nat) (hparens : s.parens = 0)
    (hbuffer : s.buffer = "") :
    putAt line s (.semicolon place) = .ok (s.atLine (line place)) ∧
      Passed s (s.atLine (line place)) s.level s.dropping [] [] := by
  constructor
  · show (s.atLine (line place)).glyph ';' = _
    rw [glyph, if_pos ⟨hparens, rfl⟩]
    exact congrArg Except.ok (if_pos (by rw [atLine, hbuffer]; rfl))
  · exact ⟨rfl, hparens, hbuffer, rfl, (List.append_nil _).symm, (List.append_nil _).symm⟩

/-- A closing brace brings the scanner to the level outside.  If that is where a disabled statement
    stands, nothing is being dropped any more. -/
theorem run_close (line : Nat → Nat) (place : Nat) (hparens : s.parens = 0) (hbuffer : s.buffer = "")
    {level : Nat} (hlevel : s.level = level + 1) :
    ∃ s', putAt line s (.closeBrace place) = .ok s' ∧
      Passed s s' level (if s.dropping = some level then none else s.dropping) [] [] := by
  refine ⟨{ s.atLine (line place) with
    level := level, dropping := if s.dropping = some level then none else s.dropping }, ?_, ?_⟩
  · show (s.atLine (line place)).glyph '\x7d' = _
    rw [glyph, if_neg (by simp), if_neg (by simp), if_pos ⟨hparens, rfl⟩, closeBrace,
      if_pos (by rw [atLine, hbuffer]; rfl)]
    have hline : (s.atLine (line place)).level = level + 1 := hlevel
    rw [hline]
    rfl
  · exact ⟨rfl, hparens, hbuffer, rfl, (List.append_nil _).symm, (List.append_nil _).symm⟩

/-! ## Bodies -/

/-- While something is being dropped, a whole body adds nothing: neither a statement nor a warning
    that one was dropped.  By induction on the body, with the level of the drop below all in it. -/
theorem run_dropped (line : Nat → Nat) (b : Body) {k : Nat} (hparens : s.parens = 0)
    (hbuffer : s.buffer = "") (hdropping : s.dropping = some k) (hk : k < s.level) :
    ∃ s', b.tokens.foldlM (putAt line) s = .ok s' ∧ Passed s s' s.level (some k) [] [] := by
  induction b generalizing s with
  | done =>
    exact ⟨s, rfl, rfl, hparens, hbuffer, hdropping, (List.append_nil _).symm,
      (List.append_nil _).symm⟩
  | semicolon place rest ih =>
    obtain ⟨hstep, hm⟩ := run_semicolon line place hparens hbuffer
    obtain ⟨s', hrun, hs'⟩ := ih hm.parens hm.buffer (hm.dropping.trans hdropping) hk
    refine ⟨s', ?_, hm.trans hs'⟩
    rw [Body.tokens, foldlM_cons_of_ok hstep, hrun]
  | leaf phrase place rest ih =>
    obtain ⟨l, hstatement⟩ := run_statement line phrase false place hparens hbuffer
    have hm := ended_dropping line phrase l false hparens hdropping
    obtain ⟨s', hrun, hs'⟩ := ih hm.parens hm.buffer hm.dropping (hm.level ▸ hk)
    refine ⟨s', (hstatement rest.tokens).trans hrun, ?_⟩
    rw [hm.level] at hs'
    exact hm.trans hs'
  | block phrase opening inner closing rest ihInner ih =>
    obtain ⟨l, hstatement⟩ := run_statement line phrase true opening hparens hbuffer
    have hm := ended_dropping line phrase l true hparens hdropping
    have hinside : k < ((s.begun line phrase l).endStatement true).level := by
      rw [hm.level]
      exact Nat.lt_succ_of_lt hk
    obtain ⟨m, hinner, hm'⟩ := ihInner hm.parens hm.buffer hm.dropping hinside
    obtain ⟨n, hclose, hn⟩ :=
      run_close line closing hm'.parens hm'.buffer (hm'.level.trans hm.level)
    -- what is being dropped began further out than the body that ends here
    have hne : ¬m.dropping = some s.level := by
      rw [hm'.dropping]
      intro heq
      have hsame := Option.some.inj heq
      omega
    rw [if_neg hne, hm'.dropping] at hn
    obtain ⟨s', hrun, hs'⟩ := ih hn.parens hn.buffer hn.dropping (hn.level ▸ hk)
    refine ⟨s', ?_, ?_⟩
    · rw [Body.tokens, ← hrun, ← foldlM_cons_of_ok hclose, ← foldlM_append_of_ok hinner]
      exact hstatement _
    · rw [hn.level] at hs'
      exact ((hm.trans hm').trans hn).trans hs'

/-- **A body gives the statements that it keeps**, and a warning for each that is disabled. -/
theorem run_body (line : Nat → Nat) (b : Body) (hparens : s.parens = 0) (hbuffer : s.buffer = "")
    (hdropping : s.dropping = none) :
    ∃ s', b.tokens.foldlM (putAt line) s = .ok s' ∧
      Passed s s' s.level none ((b.kept s.level).map (Occurrence.statement line))
        (b.disabled.map (Extent.warning line)) := by
  induction b generalizing s with
  | done =>
    exact ⟨s, rfl, rfl, hparens, hbuffer, hdropping, (List.append_nil _).symm,
      (List.append_nil _).symm⟩
  | semicolon place rest ih =>
    obtain ⟨hstep, hm⟩ := run_semicolon line place hparens hbuffer
    obtain ⟨s', hrun, hs'⟩ := ih hm.parens hm.buffer (hm.dropping.trans hdropping)
    refine ⟨s', ?_, hm.trans hs'⟩
    rw [Body.tokens, foldlM_cons_of_ok hstep, hrun]
  | leaf phrase place rest ih =>
    obtain ⟨l, hstatement⟩ := run_statement line phrase false place hparens hbuffer
    cases hdisabled : phrase.isDisabled with
    | true =>
      have hm := ended_disabled line phrase l false hparens hdropping hdisabled
      obtain ⟨s', hrun, hs'⟩ := ih hm.parens hm.buffer hm.dropping
      refine ⟨s', (hstatement rest.tokens).trans hrun, ?_⟩
      rw [Body.kept, Body.disabled, hdisabled]
      rw [hm.level] at hs'
      exact hm.trans hs'
    | false =>
      have hm := ended_kept line phrase l false hparens hdropping hdisabled
      obtain ⟨s', hrun, hs'⟩ := ih hm.parens hm.buffer hm.dropping
      refine ⟨s', (hstatement rest.tokens).trans hrun, ?_⟩
      rw [Body.kept, Body.disabled, hdisabled]
      rw [hm.level] at hs'
      exact hm.trans hs'
  | block phrase opening inner closing rest ihInner ih =>
    obtain ⟨l, hstatement⟩ := run_statement line phrase true opening hparens hbuffer
    cases hdisabled : phrase.isDisabled with
    | true =>
      have hm := ended_disabled line phrase l true hparens hdropping hdisabled
      have hinside : s.level < ((s.begun line phrase l).endStatement true).level := by
        rw [hm.level]
        exact Nat.lt_succ_self _
      obtain ⟨m, hinner, hm'⟩ := run_dropped line inner hm.parens hm.buffer hm.dropping hinside
      obtain ⟨n, hclose, hn⟩ :=
        run_close line closing hm'.parens hm'.buffer (hm'.level.trans hm.level)
      -- the body that ends here is the one that was dropped
      rw [if_pos hm'.dropping] at hn
      obtain ⟨s', hrun, hs'⟩ := ih hn.parens hn.buffer hn.dropping
      refine ⟨s', ?_, ?_⟩
      · rw [Body.tokens, ← hrun, ← foldlM_cons_of_ok hclose, ← foldlM_append_of_ok hinner]
        exact hstatement _
      · rw [Body.kept, Body.disabled, hdisabled]
        rw [hn.level] at hs'
        exact ((hm.trans hm').trans hn).trans hs'
    | false =>
      have hm := ended_kept line phrase l true hparens hdropping hdisabled
      obtain ⟨m, hinner, hm'⟩ := ihInner hm.parens hm.buffer hm.dropping
      obtain ⟨n, hclose, hn⟩ :=
        run_close line closing hm'.parens hm'.buffer (hm'.level.trans hm.level)
      rw [hm'.dropping, if_neg (Option.some_ne_none s.level).symm] at hn
      obtain ⟨s', hrun, hs'⟩ := ih hn.parens hn.buffer hn.dropping
      refine ⟨s', ?_, ?_⟩
      · rw [Body.tokens, ← hrun, ← foldlM_cons_of_ok hclose, ← foldlM_append_of_ok hinner]
        exact hstatement _
      · rw [Body.kept, Body.disabled, hdisabled]
        rw [hm.level] at hm'
        rw [hn.level] at hs'
        have hall := ((hm.trans hm').trans hn).trans hs'
        simpa using hall

/-! ## The body of some tokens -/

/-- A body that is still open: what stands before it at its level, the statement it is of, and the
    place of its brace. -/
structure Frame where
  before : Body
  phrase : Phrase
  opening : Nat

/-- `opened frames` — the tokens of the bodies that are open, with the innermost first in `frames`
    and last in the text. -/
def opened : List Frame → List Token
  | [] => []
  | f :: outer => opened outer ++ (f.before.tokens ++ f.phrase.tokens ++ [.openBrace f.opening])

/-- `Arranged done s` — the tokens `done` that the scanner `s` has read, put in order: bodies that
    are open, a body behind them at the innermost level, and a statement that is begun. -/
def Arranged (done : List Token) (s : Scanner) : Prop :=
  ∃ (frames : List Frame) (body : Body) (begun : List Token),
    done = opened frames ++ (body.tokens ++ begun) ∧ s.level = frames.length ∧
    s.buffer.toList = tokenChars begun ∧ IsBegun (begun.map Token.chunk) ∧
    Chunk.depth (begun.map Token.chunk) = s.parens

theorem arranged_init : Arranged [] init :=
  ⟨[], .done, [], rfl, rfl, rfl, Anatomy.isBegun_nil, rfl⟩

theorem Arranged.eq_nil {begun : List Token} (hbuffer : s.buffer.toList = tokenChars begun)
    (hempty : s.buffer = "") : begun = [] :=
  Anatomy.eq_nil_of_tokenChars (by rw [← hbuffer, hempty]; rfl)

/-- A token `t` that neither ends a statement nor closes a parenthesis too many goes into the
    statement that is begun. -/
theorem Arranged.taken {done : List Token} (h : Arranged done s) {t : Token} {parens : Nat}
    (hparens : (parens : Int) = s.parens + t.chunk.rise) (hinner : s.parens = 0 → ¬t.chunk.IsEnd) :
    Arranged (done ++ [t]) (s.taken t.chunk parens) := by
  obtain ⟨frames, body, begun, rfl, hlevel, hbuffer, hbegun, hdepth⟩ := h
  have hrise : Chunk.depth (begun.map Token.chunk) + t.chunk.rise = parens := by
    rw [hdepth]
    exact hparens.symm
  refine ⟨frames, body, begun ++ [t], by simp, hlevel, ?_, ?_, ?_⟩
  · show (s.buffer ++ String.ofList t.chunk.chars).toList = _
    rw [String.toList_append, String.toList_ofList, hbuffer, tokenChars, tokenChars,
      List.flatMap_append, List.flatMap_singleton]
  · rw [List.map_append]
    refine hbegun.append (by rw [hrise]; exact Int.natCast_nonneg _) fun hzero => hinner ?_
    rw [hdepth] at hzero
    exact Int.ofNat_eq_zero.mp hzero
  · rw [List.map_append]
    exact (Anatomy.depth_append _ _).trans hrise

/-- A token that ends a statement, or opens its body, completes the statement in the buffer: it
    joins those of its level, or it becomes the head of an open body. -/
theorem Arranged.ended {done : List Token} (h : Arranged done s) (hparens : s.parens = 0)
    (hne : s.buffer ≠ "") (opensBody : Bool) (place : Nat) :
    Arranged (done ++ [endToken opensBody place]) (s.endStatement opensBody) := by
  obtain ⟨frames, body, begun, rfl, hlevel, hbuffer, hbegun, hdepth⟩ := h
  have hne' : begun ≠ [] := by
    rintro rfl
    exact hne (String.toList_inj.mp hbuffer)
  -- what is in the buffer is a phrase
  have hclosed : Chunk.depth (begun.map Token.chunk) = 0 := by rw [hdepth, hparens]; rfl
  obtain ⟨p, rfl⟩ : ∃ p : Phrase, p.tokens = begun := ⟨⟨begun, hne', hbegun, hclosed⟩, rfl⟩
  have hzero : (0 : Int) = s.parens := by rw [hparens]; rfl
  obtain ⟨warnings, dropping, statements, heq, -⟩ := endStatement_cases s opensBody
  rw [heq]
  cases opensBody with
  | false =>
    refine ⟨frames, body.append (.leaf p place .done), [], ?_, hlevel, rfl, Anatomy.isBegun_nil,
      hzero⟩
    rw [Body.tokens_append]
    simp [Body.tokens, endToken]
  | true =>
    refine ⟨⟨body, p, place⟩ :: frames, .done, [], ?_, congrArg (· + 1) hlevel, rfl,
      Anatomy.isBegun_nil, hzero⟩
    simp [opened, Body.tokens, endToken]

/-- A semicolon that ends nothing is kept as such among the statements of its level. -/
theorem Arranged.semicolon {done : List Token} (h : Arranged done s) (hempty : s.buffer = "")
    (place : Nat) : Arranged (done ++ [.semicolon place]) s := by
  obtain ⟨frames, body, begun, rfl, hlevel, hbuffer, hbegun, hdepth⟩ := h
  obtain rfl := Arranged.eq_nil hbuffer hempty
  refine ⟨frames, body.append (.semicolon place .done), [], ?_, hlevel, hbuffer, hbegun, hdepth⟩
  rw [Body.tokens_append]
  simp [Body.tokens]

/-- A brace closes the innermost body, which then joins what stands before it at the level
    outside. -/
theorem Arranged.closed {done : List Token} (h : Arranged done s) (hempty : s.buffer = "")
    {level : Nat} (hlevel' : s.level = level + 1) (dropping : Option Nat) (place : Nat) :
    Arranged (done ++ [.closeBrace place]) { s with level := level, dropping := dropping } := by
  obtain ⟨frames, body, begun, rfl, hlevel, hbuffer, hbegun, hdepth⟩ := h
  obtain rfl := Arranged.eq_nil hbuffer hempty
  rw [hlevel'] at hlevel
  cases frames with
  | nil => exact nomatch hlevel
  | cons f outer =>
    refine ⟨outer, f.before.append (.block f.phrase f.opening body place .done), [], ?_,
      Nat.succ.inj hlevel, hbuffer, hbegun, hdepth⟩
    rw [Body.tokens_append]
    simp [opened, Body.tokens]

/-- **The step lemma.**  One more token that is accepted leaves all tokens so far arranged: complete
    statements, open bodies, and the statement that is begun. -/
theorem Arranged.step {done : List Token} {t : Token} (h : Arranged done s)
    (hput : putAt line s t = .ok s') : Arranged (done ++ [t]) s' := by
  -- the line plays no part
  have h' : Arranged done (s.atLine (line t.start)) := h
  rcases put_cases hput with ⟨parens, hparens, hinner, rfl⟩ | ⟨hparens, c, hc, hchunk, hcases⟩
  · exact h'.taken hparens hinner
  · obtain ⟨chunk, place⟩ := t
    dsimp only at hchunk
    subst hchunk
    rcases hcases with ⟨rfl, rfl⟩ | ⟨rfl, hne, rfl⟩ | ⟨rfl, hempty, level, hlevel, rfl⟩
    · split
      · rename_i hempty
        exact h'.semicolon (String.isEmpty_iff.mp hempty) place
      · rename_i hne
        exact h'.ended hparens (ne_empty_of_not_isEmpty hne) false place
    · exact h'.ended hparens hne true place
    · exact h'.closed hempty hlevel _ place

/-- **Tokens that are accepted are those of a body**, if no statement and no body is left open
    behind them.  By induction on the tokens, with the step lemma. -/
theorem exists_body {ts : List Token} (h : ts.foldlM (putAt line) init = .ok s)
    (hbuffer : s.buffer = "") (hlevel : s.level = 0) : ∃ b : Body, b.tokens = ts := by
  have hstep : ∀ done m t m', Arranged done m → putAt line m t = .ok m' →
      Arranged (done ++ [t]) m' := fun _ _ _ _ hm hput => hm.step hput
  have harranged : Arranged ts s := foldlM_done hstep arranged_init h
  obtain ⟨frames, body, begun, rfl, hframes, hbegun, -, -⟩ := harranged
  obtain rfl := Arranged.eq_nil hbegun hbuffer
  obtain rfl : frames = [] := List.length_eq_zero_iff.mp (hframes.symm.trans hlevel)
  exact ⟨body, by simp [opened]⟩

end Scanner

/-! ## Texts -/

namespace Statement

open Scanner

theorem scan_eq_ending (text : String) : scan text = Scan.ofResult (init.ending text.toList) := by
  rw [scan_eq]
  unfold ending
  cases init.rest text.toList with
  | error h => rfl
  | ok s => rfl

theorem finish_ready {s : Scanner} (hmode : s.mode = .plain) (hbuffer : s.buffer = "")
    (hlevel : s.level = 0) : s.finish = .ok s := by
  simp [finish, close, hmode, hbuffer, hlevel]

/-- A text that is cut into `ps` to its end is scanned by putting the tokens of these pieces, each
    on the line of its place, and then counting the lines. -/
theorem ending_of_tokens {ps : List Anatomy.Piece} {text : List Char} (hcut : Cut ps text []) :
    init.ending text = (Anatomy.tokens 0 ps).foldlM (putAt (lineAt text)) init >>= fun m =>
      (m.atLine (1 + Source.lineEnds (ps.flatMap Anatomy.Piece.chars))).ending [] := by
  refine ending_of_cut hcut rfl 0 (lineAt text) fun i => ?_
  rw [Nat.zero_add]
  rfl

/-- **A text whose tokens are those of a body, perhaps elsewhere,** gives the statements that the
    body keeps. -/
theorem scan_of_body {text : String} {ps : List Anatomy.Piece} (hcut : Cut ps text.toList [])
    {b : Body} {f : Nat → Nat} (htokens : Anatomy.tokens 0 ps = b.tokens.map (Token.move f)) :
    (scan text).result = .ok ((b.kept 0).map (Occurrence.statement (lineAt text.toList ∘ f))) ∧
    (scan text).warnings.filter Warning.isDrop
      = b.disabled.map (Extent.warning (lineAt text.toList ∘ f)) := by
  obtain ⟨s, hrun, hs⟩ :=
    run_body (s := init) (lineAt text.toList ∘ f) b rfl rfl rfl
  have htext : init.ending text.toList = .ok ((s.atLine (1 + Source.lineEnds
      (ps.flatMap Anatomy.Piece.chars))).inMode .plain) := by
    rw [ending_of_tokens hcut, htokens, List.foldlM_map]
    change b.tokens.foldlM (putAt (lineAt text.toList ∘ f)) init >>= _ = _
    have hmode : s.mode = .plain := mode_of_run rfl hrun
    have hfinish : (s.atLine (1 + Source.lineEnds (ps.flatMap Anatomy.Piece.chars))).finish
        = .ok (s.atLine (1 + Source.lineEnds (ps.flatMap Anatomy.Piece.chars))) :=
      finish_ready hmode hs.buffer hs.level
    rw [hrun]
    exact congrArg (Except.map (·.inMode .plain)) hfinish
  rw [scan_eq_ending, htext]
  exact ⟨congrArg Except.ok hs.statements, hs.drops⟩

/-- A text that is accepted has an anatomy: its tokens are those of a body. -/
theorem exists_anatomy {text : String} {ss : List Statement} (h : (scan text).result = .ok ss) :
    Nonempty (Anatomy text.toList) := by
  rw [scan_eq_ending] at h
  cases hending : init.ending text.toList with
  | error halt => rw [hending] at h; exact nomatch h
  | ok s =>
    obtain ⟨ps, rest, hcut, hrest⟩ := Anatomy.exists_cut text.toList
    have hline : ∀ i, lineAt text.toList (0 + i)
        = init.line + Source.lineEnds (text.toList.take i) := fun i => by rw [Nat.zero_add]; rfl
    rw [ending_of_cut hcut rfl 0 _ hline] at hending
    obtain ⟨m, hrun, hm⟩ := bind_ok.mp hending
    rcases hrest with rfl | hunended
    · obtain ⟨last, hfinish, -⟩ := Outcome.map_ok.mp hm
      obtain ⟨-, -, hbuffer, hlevel⟩ := finish_ok hfinish
      obtain ⟨b, hb⟩ := exists_body hrun hbuffer hlevel
      exact ⟨⟨ps, b, hcut, hb⟩⟩
    · have hmode : m.mode = .plain := mode_of_run rfl hrun
      have hfails : ∀ l, ∃ halt, (m.atLine l).ending rest = .error halt :=
        fun l => ending_of_unended (s := m.atLine l) hmode hunended
      obtain ⟨halt, hhalt⟩ := hfails _
      rw [hhalt] at hm
      exact nomatch hm

/-- **What a text with an anatomy gives.**  Its statements are those of the body that are kept, with
    the lines of their places, and the warnings about drops are those of its disabled statements. -/
theorem scan_of_anatomy {text : String} (a : Anatomy text.toList) :
    (scan text).result = .ok (a.kept.map (Occurrence.statement (lineAt text.toList))) ∧
    (scan text).warnings.filter Warning.isDrop
      = a.disabled.map (Extent.warning (lineAt text.toList)) := by
  refine scan_of_body (f := id) a.cut ?_
  rw [← a.tokens_eq]
  exact (List.map_id _).symm

/-- **The lines of statements are true.**  A text that is accepted has an anatomy.  The statements
    given are those it keeps, and the line of each is one more than the number of line ends before
    its first character. -/
theorem scan_keeps_true_lines {text : String} {ss : List Statement}
    (h : (scan text).result = .ok ss) :
    Nonempty (Anatomy text.toList) ∧
    ∀ a : Anatomy text.toList, ss = a.kept.map fun o =>
      ⟨o.phrase.signature, o.level, (1 + Source.lineEnds (text.toList.take o.phrase.start) : Nat)⟩ := by
  refine ⟨exists_anatomy h, fun a => ?_⟩
  rw [(scan_of_anatomy a).1] at h
  exact (Except.ok.inj h).symm

/-- Line ends in both kinds of comment, behind a backslash in a string of a disabled body, and in the
    middle of a statement. -/
def crowdedLines : String := "/*\n*/ *a\x7b\"\\\n\";\x7d\nb( // (\n\n1);c;"

theorem scan_keeps_true_lines_crowded :
    (scan crowdedLines).result = .ok [⟨"b(1)", 0, 4⟩, ⟨"c", 0, 6⟩] ∧
    Nonempty (Anatomy crowdedLines.toList) ∧
    ∀ a : Anatomy crowdedLines.toList, a.kept.map (fun o =>
      ((1 + Source.lineEnds (crowdedLines.toList.take o.phrase.start) : Nat) : Int)) = [4, 6] := by
  have hscan : (scan crowdedLines).result = .ok [⟨"b(1)", 0, 4⟩, ⟨"c", 0, 6⟩] := by rfl
  obtain ⟨hanatomy, hlines⟩ := scan_keeps_true_lines hscan
  refine ⟨hscan, hanatomy, fun a => ?_⟩
  have hline := congrArg (List.map Statement.line) (hlines a)
  rw [List.map_map] at hline
  exact hline.symm

end Statement

end SolidExport
