/-
  Faults of a source point back at it.

  A fault points at a place if that is its location and its message is framed by the line and the
  signature of that place (`Fault.PointsAt`).  Scanning stops at a place in the text.  Nesting stops
  at the first statement that cannot stand behind the ones before it: for its level, for its tag or
  for its parentheses, in this order (`Node.Refuses`).

  All of these faults point at their place but one.  A statement whose tag is no name is refused
  before its place is noted: the fault has no location, and its message is of another form
  (`source_faults_point_back`).
-/
import SolidExport.Proofs.Line.Halt

namespace SolidExport

open Statement (Follows Nests lastLevel nests_append)
open Source (read_ok span_append splitAtLast?_append)

/-! ## Pointing -/

/-- `l.frame what` — a sentence between the line and the signature of the place `l`, which is what
    the message of a fault looks like. -/
def Location.frame (l : Location) (what : String) : String :=
  "csg line " ++ integerText l.line ++ ": " ++ what ++ ": " ++ l.signature

/-- `f.PointsAt l` — the fault `f` names the place `l`, by its location and in its message. -/
structure Fault.PointsAt (f : Fault) (l : Location) : Prop where
  location : f.location = some l
  message : f.message = l.frame f.cause.text

theorem Fault.pointsAt_of_location {f : Fault} {l : Location} (h : f.location = some l) :
    f.PointsAt l := by
  refine ⟨h, ?_⟩
  unfold message
  rw [h]
  rfl

/-! ## Signatures -/

namespace Signature

/-- `Closes signature` — whether the parentheses of a signature close.  It has none, or behind its
    first one there is a closing one with nothing but white space behind it. -/
def Closes (signature : String) : Prop :=
  '(' ∉ signature.toList ∨ ∃ front list behind : List Char,
    signature.toList = front ++ '(' :: (list ++ ')' :: behind) ∧ '(' ∉ front ∧
      ∀ c ∈ behind, Text.isBlank c = true

/-- `IsWellFormed signature` — the signature is a tag with parentheses that close.  Nothing is asked
    of what stands between them. -/
structure IsWellFormed (signature : String) : Prop where
  tag : isTag (tagOf signature) = true
  closes : Closes signature

variable {line : Int} {signature : String}

theorem dropWhile_open (front rest : List Char) (h : '(' ∉ front) :
    (front ++ '(' :: rest).dropWhile (· != '(') = '(' :: rest := by
  have hfront : ∀ c ∈ front, (c != '(') = true :=
    fun c hc => bne_iff_ne.mpr fun heq => h (heq ▸ hc)
  refine (span_append hfront fun c hc => ?_).2
  cases hc
  decide

/-- A well-formed signature can be read, on whatever line.  Its parameters never stand in the
    way. -/
theorem IsWellFormed.read (h : IsWellFormed signature) (line : Int) :
    ∃ x, Signature.read line signature = .ok x := by
  unfold Signature.read
  dsimp only
  rw [if_pos h.tag]
  rcases h.closes with hnone | ⟨front, list, behind, heq, hfront, hblank⟩
  · have hdrop : signature.toList.dropWhile (· != '(') = [] :=
      List.dropWhile_eq_nil_iff.mpr fun c hc => bne_iff_ne.mpr fun heq => hnone (heq ▸ hc)
    rw [hdrop]
    exact ⟨_, rfl⟩
  · have hlast : ')' ∉ behind := fun hmem => absurd (hblank _ hmem) (by decide)
    rw [heq, dropWhile_open _ _ hfront]
    dsimp only
    rw [splitAtLast?_append list hlast]
    dsimp only
    rw [if_pos (List.all_eq_true.mpr hblank)]
    exact ⟨_, rfl⟩

/-- A signature that can be read is well-formed: its tag is a tag, and its parentheses close at its
    end. -/
theorem isWellFormed_of_read {x : Signature} (h : read line signature = .ok x) :
    IsWellFormed signature := by
  obtain ⟨htag, ⟨hnone, -⟩ | ⟨front, list, behind, heq, hfront, hblank, -⟩⟩ := read_ok h
  · exact ⟨htag, Or.inl hnone⟩
  · exact ⟨htag, Or.inr ⟨front, list, behind, heq, hfront, hblank⟩⟩

end Signature

/-! ## Statements -/

theorem Statement.isReadable_iff (s : Statement) :
    s.IsReadable ↔ Signature.IsWellFormed s.signature := by
  constructor
  · rintro ⟨x, hx⟩
    exact Signature.isWellFormed_of_read hx
  · exact fun h => h.read s.line

/-- `Admitted ss` — the statements `ss` become a tree: their levels nest, and each signature is
    well-formed. -/
structure Statement.Admitted (ss : List Statement) : Prop where
  nests : Nests ss
  wellFormed : ∀ s ∈ ss, Signature.IsWellFormed s.signature

/-- `s.IsNameless previous` — the statement `s` could stand behind one of level `previous` if its
    tag were a name.  This is the one offence whose fault has no location. -/
def Statement.IsNameless (previous : Int) (s : Statement) : Prop :=
  Follows previous s.level ∧ Signature.isTag (Signature.tagOf s.signature) = false

namespace Node

open Statement (Admitted IsNameless)

/-- `Refuses previous s f` — the statement `s` cannot stand behind one of level `previous`, and `f`
    is its fault.  The level is looked at first, then the tag, then the parentheses. -/
inductive Refuses (previous : Int) (s : Statement) : Fault → Prop where
  | level (hlevel : ¬Follows previous s.level) : Refuses previous s (levelFault previous s)
  | tag (hname : s.IsNameless previous) :
      Refuses previous s (.unlocated (.invalidStatement s.line s.signature))
  | parentheses (hlevel : Follows previous s.level)
      (htag : Signature.isTag (Signature.tagOf s.signature) = true)
      (hopen : ¬Signature.Closes s.signature) :
      Refuses previous s (.located s.location .unbalancedParentheses)

/-- **The first statement that is wrong is refused.**  Those before it are admitted, and with it they
    are not. -/
theorem refuses_of_error {ss : List Statement} {f : Fault} (h : ofStatements ss = .error f) :
    ∃ before s after, ss = before ++ s :: after ∧ Admitted before ∧ ¬Admitted (before ++ [s]) ∧
      Refuses (lastLevel before) s f := by
  obtain ⟨before, s, after, hss, hnests, hreadable, hwrong⟩ := readHeads_error (ofStatements_error h)
  have hbefore : Admitted before :=
    ⟨hnests, fun b hb => b.isReadable_iff.mp (hreadable b hb)⟩
  have hlast : Admitted (before ++ [s]) →
      Follows (lastLevel before) s.level ∧ Signature.IsWellFormed s.signature := fun hwith =>
    ⟨(nests_append.mp hwith.nests).2, hwith.wellFormed s (by simp)⟩
  refine ⟨before, s, after, hss, hbefore, ?_⟩
  rcases hwrong with ⟨hlevel, rfl⟩ | ⟨hfollows, hsignature⟩
  · exact ⟨fun hwith => hlevel (hlast hwith).1, .level hlevel⟩
  · rcases Signature.read_error hsignature with ⟨htag, rfl⟩ | ⟨htag, rfl⟩
    · refine ⟨fun hwith => ?_, .tag ⟨hfollows, htag⟩⟩
      rw [(hlast hwith).2.tag] at htag
      exact nomatch htag
    · have hopen : ¬Signature.Closes s.signature := by
        intro hcloses
        obtain ⟨x, hx⟩ := Signature.IsWellFormed.read ⟨htag, hcloses⟩ s.line
        rw [hx] at hsignature
        exact nomatch hsignature
      exact ⟨fun hwith => hopen (hlast hwith).2.closes, .parentheses hfollows htag hopen⟩

/-- Statements are refused exactly if they are not admitted, that is if they do not nest or one of
    them is not well-formed. -/
theorem ofStatements_error_iff (ss : List Statement) :
    (∃ f, ofStatements ss = .error f) ↔ ¬Admitted ss := by
  constructor
  · rintro ⟨f, hf⟩ hadmitted
    obtain ⟨before, s, after, rfl, -, hnot, -⟩ := refuses_of_error hf
    -- what is admitted is admitted up to any of its statements
    have hsplit : before ++ s :: after = (before ++ [s]) ++ after := by simp
    rw [hsplit] at hadmitted
    exact hnot ⟨hadmitted.nests.of_append,
      fun b hb => hadmitted.wellFormed b (List.mem_append_left after hb)⟩
  · intro hnot
    cases h : ofStatements ss with
    | error f => exact ⟨f, rfl⟩
    | ok root =>
      obtain ⟨-, -, hnests, hreadable⟩ := ofStatements_ok h
      exact absurd ⟨hnests, fun s hs => s.isReadable_iff.mp (hreadable s hs)⟩ hnot

end Node

/-! ## The source -/

/-- The message of a statement whose tag is no name.  It names the line by itself, without a
    location. -/
theorem message_invalidStatement (line : Int) (signature : String) :
    (Fault.unlocated (.invalidStatement line signature)).message
      = "csg line " ++ integerText line ++ ": invalid statement '" ++ signature ++ "'" := rfl

/-- That message is in no frame with the signature: where a frame has a colon it has a quote. -/
theorem message_invalidStatement_ne_frame (s : Statement) (what : String) :
    (Fault.unlocated (.invalidStatement s.line s.signature)).message ≠ s.location.frame what := by
  intro h
  have hchars : ("csg line " ++ integerText s.line ++ ": invalid statement ").toList
        ++ ('\'' :: (s.signature.toList ++ ['\'']))
      = ("csg line " ++ integerText s.line ++ ": " ++ what).toList
        ++ (':' :: ' ' :: s.signature.toList) := by
    have hquote : ": invalid statement '" = ": invalid statement " ++ "'" := by decide
    have htext := congrArg String.toList h
    rw [message_invalidStatement, hquote] at htext
    simpa [Location.frame, Statement.location, Signature.location] using htext
  -- both ends have two characters more than the signature
  obtain ⟨-, hends⟩ := List.append_inj' hchars (by simp)
  exact absurd (List.cons.inj hends).1 (by decide)

open Statement (Admitted)

/-- **Faults of a source point back at it.**  A text that cannot be scanned is refused at one of its
    places.  Statements are refused exactly if they are not admitted, and then the fault points at the
    first that is wrong, unless all that is wrong with it so far is its tag: then the fault has no
    location, and its message is in no frame with the signature. -/
theorem source_faults_point_back (text : String) (ss : List Statement) :
    (∀ f, (Statement.scan text).result = .error f → ∃ l, f.PointsAt l ∧ l.IsIn text.toList) ∧
    ((∃ f, Node.ofStatements ss = .error f) ↔ ¬Admitted ss) ∧
    (∀ f, Node.ofStatements ss = .error f →
      ∃ before s after, ss = before ++ s :: after ∧ Admitted before ∧ ¬Admitted (before ++ [s]) ∧
        (f.PointsAt s.location ↔ ¬s.IsNameless (lastLevel before)) ∧
        (s.IsNameless (lastLevel before) → f.location = none ∧
          f.message = "csg line " ++ integerText s.line ++ ": invalid statement '" ++ s.signature ++ "'" ∧
          ∀ what, f.message ≠ s.location.frame what)) := by
  refine ⟨fun f hf => ?_, Node.ofStatements_error_iff ss, fun f hf => ?_⟩
  · obtain ⟨l, hl, hin⟩ := Statement.location_isIn_of_scan hf
    exact ⟨l, Fault.pointsAt_of_location hl, hin⟩
  · obtain ⟨before, s, after, hss, hbefore, hwith, hrefuses⟩ := Node.refuses_of_error hf
    refine ⟨before, s, after, hss, hbefore, hwith, ?_⟩
    cases hrefuses with
    | level hlevel =>
      have hnamed : ¬s.IsNameless (lastLevel before) := fun hname => hlevel hname.1
      exact ⟨iff_of_true (Fault.pointsAt_of_location rfl) hnamed, fun hname => absurd hname hnamed⟩
    | parentheses _ htag _ =>
      have hnamed : ¬s.IsNameless (lastLevel before) := by
        rintro ⟨-, hname⟩
        rw [htag] at hname
        exact nomatch hname
      exact ⟨iff_of_true (Fault.pointsAt_of_location rfl) hnamed, fun hname => absurd hname hnamed⟩
    | tag hname =>
      refine ⟨iff_of_false (fun hpoints => nomatch hpoints.location) (not_not_intro hname), fun _ => ?_⟩
      exact ⟨rfl, message_invalidStatement s.line s.signature, message_invalidStatement_ne_frame s⟩

/-- A text with a comment that is left open inside a statement. -/
def openComment : String := "a();\nb( /*\n)"

/-- A statement whose parentheses do not close, in front of one whose level is skipped. -/
def openCall : List Statement := [⟨"union()", 0, 1⟩, ⟨"cube(", 1, 2⟩, ⟨"a()", 7, 3⟩]

/-- A statement whose tag begins with a digit. -/
def digitTag : List Statement := [⟨"union()", 0, 1⟩, ⟨"3d()", 1, 2⟩]

theorem source_faults_point_back_digitTag :
    (∃ f l, (Statement.scan openComment).result = .error f ∧ f.PointsAt l ∧
      l.IsIn openComment.toList ∧ f.message = "csg line 2: unterminated comment: b(") ∧
    (∃ f, Node.ofStatements openCall = .error f ∧ (∃ s ∈ openCall, f.PointsAt s.location) ∧
      f.message = "csg line 2: unbalanced parentheses: cube(") ∧
    (∃ f, Node.ofStatements digitTag = .error f ∧ ¬Admitted digitTag ∧
      (∃ s ∈ digitTag, f.location = none ∧ ∀ what, f.message ≠ s.location.frame what) ∧
      f.message = "csg line 2: invalid statement '3d()'") := by
  obtain ⟨hscan, -, hcall⟩ := source_faults_point_back openComment openCall
  obtain ⟨-, hadmitted, hdigit⟩ := source_faults_point_back openComment digitTag
  have hcomment : (Statement.scan openComment).result
      = .error (.located ⟨2, "b", "b("⟩ .unterminatedComment) := rfl
  have hopen : Node.ofStatements openCall
      = .error (.located ⟨2, "cube", "cube("⟩ .unbalancedParentheses) := (Node.ofStatements_eq _).trans rfl
  have htag : Node.ofStatements digitTag = .error (.unlocated (.invalidStatement 2 "3d()")) :=
    (Node.ofStatements_eq _).trans rfl
  refine ⟨?_, ?_, ?_⟩
  · obtain ⟨l, hpoints, hin⟩ := hscan _ hcomment
    exact ⟨_, l, hcomment, hpoints, hin, by decide⟩
  · obtain ⟨before, s, after, hss, -, -, hpoints, hnone⟩ := hcall _ hopen
    have hmem : s ∈ openCall := by
      rw [hss]
      simp
    exact ⟨_, hopen, ⟨s, hmem, hpoints.mpr fun hname => nomatch (hnone hname).1⟩, by decide⟩
  · obtain ⟨before, s, after, hss, -, -, hpoints, hnone⟩ := hdigit _ htag
    have hmem : s ∈ digitTag := by
      rw [hss]
      simp
    have hname : s.IsNameless (lastLevel before) := by
      by_contra hnamed
      exact nomatch (hpoints.mpr hnamed).location
    obtain ⟨hlocation, -, hframe⟩ := hnone hname
    exact ⟨_, htag, hadmitted.mp ⟨_, htag⟩, ⟨s, hmem, hlocation, hframe⟩, by decide⟩

end SolidExport
