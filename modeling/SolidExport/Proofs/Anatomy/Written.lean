/-
  Statements as they are written.

  The tokens of a statement stand in a row in its text (`Body.infix_of_kept`), so the text has pieces
  in a row that hold them, with nothing but white space and comments between.  `a.Writes p written`
  says that `written` is what stands in those pieces, comments aside.

  Taking the white space outside of strings from `written` leaves exactly what the scanner keeps of the
  statement (`Writes.strip_eq`): no piece begins or ends inside of a string, so that each is left as a
  whole or not at all.
-/
import SolidExport.Proofs.Anatomy.Body
import SolidExport.Proofs.Literal.Strip

namespace SolidExport

open Source (Mark kept_blank kept_of_not quoted_step step_blank_depth strip stripFrom stripFrom_append)

/-! ## Stripping one piece -/

/-- Outside of strings no character `c` leaves a backslash to remember. -/
theorem Depth.escaped_step {d : Depth} (hd : d.quoted = false) (hescaped : d.escaped = false)
    (c : Char) : (d.step c).escaped = false := by
  obtain ⟨brackets, quoted, escaped⟩ := d
  subst hd hescaped
  unfold Depth.step
  split
  · rfl
  · split
    · rfl
    · split
      · rfl
      · split <;> rfl

/-- A string is kept with the white space in it, and the depth `d` behind it is the one before it. -/
theorem Source.stripFrom_string {d : Depth} (hd : d.quoted = false) (hescaped : d.escaped = false)
    (marks : List Mark) :
    stripFrom d (Chunk.string marks).chars = (Chunk.string marks).chars ∧
      (Chunk.string marks).chars.foldl Depth.step d = d := by
  obtain ⟨brackets, quoted, escaped⟩ := d
  subst hd hescaped
  have hmarks : stripFrom ⟨brackets, true, false⟩ (marks.flatMap Mark.chars) =
        marks.flatMap Mark.chars ∧
      (marks.flatMap Mark.chars).foldl Depth.step ⟨brackets, true, false⟩ =
        ⟨brackets, true, false⟩ := by
    induction marks with
    | nil => exact ⟨rfl, rfl⟩
    | cons m marks ih =>
      have hmark : stripFrom ⟨brackets, true, false⟩ m.chars = m.chars ∧
          m.chars.foldl Depth.step ⟨brackets, true, false⟩ = ⟨brackets, true, false⟩ := by
        cases m with
        | bare c free => exact ⟨rfl, by simp [Mark.chars, Depth.step, free.1, free.2]⟩
        | escaped c => exact ⟨rfl, rfl⟩
      rw [List.flatMap_cons, stripFrom_append, List.foldl_append, hmark.1, hmark.2, ih.1, ih.2]
      exact ⟨rfl, rfl⟩
  show stripFrom _ ('"' :: (marks.flatMap Mark.chars ++ ['"'])) = _ ∧
    List.foldl _ _ ('"' :: (marks.flatMap Mark.chars ++ ['"'])) = _
  constructor
  · show '"' :: stripFrom ⟨brackets, true, false⟩ (marks.flatMap Mark.chars ++ ['"']) = _
    rw [stripFrom_append, hmarks.1, hmarks.2]
    rfl
  · show List.foldl Depth.step ⟨brackets, true, false⟩ (marks.flatMap Mark.chars ++ ['"']) = _
    rw [List.foldl_append, hmarks.2]
    rfl

namespace Anatomy

/-- `p.shown` — what a reader sees of the piece `p` who skips comments: nothing of a comment, all of
    any other piece. -/
def Piece.shown : Piece → List Char
  | .blank c _ => [c]
  | .lineComment .. => []
  | .blockComment .. => []
  | .glyph c _ _ => [c]
  | .string marks => (Chunk.string marks).chars

/-- **One piece.**  From a depth `d` outside of strings, stripping what is shown of the piece `p` leaves
    the chunk that is kept of it, and behind the piece the text is outside of strings again. -/
theorem Piece.stripFrom_shown {d : Depth} (hd : d.quoted = false) (hescaped : d.escaped = false)
    (p : Piece) :
    stripFrom d p.shown = (p.chunk?.map Chunk.chars).getD [] ∧
      (p.shown.foldl Depth.step d).quoted = false ∧ (p.shown.foldl Depth.step d).escaped = false := by
  cases p with
  | blank c hc =>
    have hstep : [c].foldl Depth.step d = d := step_blank_depth hd hc
    show stripFrom d [c] = [] ∧ ([c].foldl Depth.step d).quoted = false ∧
      ([c].foldl Depth.step d).escaped = false
    rw [hstep]
    refine ⟨?_, hd, hescaped⟩
    show Source.kept d c ++ [] = []
    rw [kept_blank hd hc]
    rfl
  | lineComment body hbody => exact ⟨rfl, hd, hescaped⟩
  | blockComment body hbody => exact ⟨rfl, hd, hescaped⟩
  | glyph c free solid =>
    refine ⟨?_, (quoted_step free d).trans hd, Depth.escaped_step hd hescaped c⟩
    show Source.kept d c ++ [] = [c]
    rw [kept_of_not fun h => Bool.false_ne_true (solid.symm.trans h.2)]
    rfl
  | string marks =>
    obtain ⟨hstrip, hdepth⟩ := Source.stripFrom_string hd hescaped marks
    refine ⟨hstrip, ?_⟩
    show ((Chunk.string marks).chars.foldl Depth.step d).quoted = false ∧
      ((Chunk.string marks).chars.foldl Depth.step d).escaped = false
    rw [hdepth]
    exact ⟨hd, hescaped⟩

/-- **Pieces in a row.**  Stripping what is shown of the pieces `ps` leaves the characters of their
    tokens, wherever (`offset`) the pieces stand in a text. -/
theorem stripFrom_shown {d : Depth} (hd : d.quoted = false) (hescaped : d.escaped = false)
    (offset : Nat) (ps : List Piece) :
    stripFrom d (ps.flatMap Piece.shown) = tokenChars (tokens offset ps) := by
  induction ps generalizing d offset with
  | nil => rfl
  | cons p ps ih =>
    obtain ⟨hpiece, hquoted', hescaped'⟩ := p.stripFrom_shown hd hescaped
    have htoken : tokenChars ((p.chunk?.map (Token.mk · offset)).toList) =
        (p.chunk?.map Chunk.chars).getD [] := by
      cases p.chunk? with
      | none => rfl
      | some k => exact List.append_nil _
    rw [List.flatMap_cons, stripFrom_append, hpiece, ih hquoted' hescaped' (offset + p.chars.length),
      ← htoken]
    exact List.flatMap_append.symm

/-! ## The pieces of a statement -/

/-- Where the tokens of the pieces `ps` fall into two parts, so do the pieces.  White space and
    comments between the parts may go to either. -/
theorem exists_pieces_of_tokens {offset : Nat} {ps : List Piece} {front back : List Token}
    (h : tokens offset ps = front ++ back) :
    ∃ qs rs, ps = qs ++ rs ∧ tokens offset qs = front ∧
      tokens (offset + (qs.flatMap Piece.chars).length) rs = back := by
  induction ps generalizing offset front with
  | nil =>
    obtain ⟨rfl, rfl⟩ := List.append_eq_nil_iff.mp h.symm
    exact ⟨[], [], rfl, rfl, rfl⟩
  | cons p ps ih =>
    cases front with
    | nil => exact ⟨[], p :: ps, rfl, rfl, h⟩
    | cons t front =>
      -- the first piece goes to the front, with its token if it has one
      rw [tokens] at h
      have hlength : ∀ qs : List Piece, offset + ((p :: qs).flatMap Piece.chars).length =
          offset + p.chars.length + (qs.flatMap Piece.chars).length := by
        intro qs
        rw [List.flatMap_cons, List.length_append, Nat.add_assoc]
      cases hchunk : p.chunk? with
      | none =>
        rw [hchunk] at h
        obtain ⟨qs, rs, rfl, hqs, hrs⟩ := ih h
        refine ⟨p :: qs, rs, rfl, ?_, ?_⟩
        · rw [tokens, hchunk, hqs]
          rfl
        · rw [hlength, hrs]
      | some k =>
        rw [hchunk] at h
        obtain ⟨rfl, htail⟩ := List.cons.inj h
        obtain ⟨qs, rs, rfl, hqs, hrs⟩ := ih htail
        refine ⟨p :: qs, rs, rfl, ?_, ?_⟩
        · rw [tokens, hchunk, hqs]
          rfl
        · rw [hlength, hrs]

/-- The tokens of a statement `o` that the body `b` keeps stand in a row in `b`, be it a statement with
    or without a body and however deep. -/
theorem Body.infix_of_kept {b : Body} {o : Occurrence} {level : Nat} (h : o ∈ b.kept level) :
    o.phrase.tokens <:+: b.tokens := by
  induction b generalizing level with
  | done => exact absurd h List.not_mem_nil
  | semicolon place rest ih => exact (ih h).trans (List.suffix_cons _ _).isInfix
  | leaf phrase place rest ih =>
    rcases List.mem_append.mp h with h | h
    · split at h
      · exact absurd h List.not_mem_nil
      · rw [List.mem_singleton.mp h]
        exact (List.prefix_append _ _).isInfix
    · have hrest : rest.tokens <:+ (Body.leaf phrase place rest).tokens :=
        (List.suffix_cons _ _).trans (List.suffix_append _ _)
      exact (ih h).trans hrest.isInfix
  | block phrase opening inner closing rest ihInner ih =>
    have hbody : inner.tokens ++ .closeBrace closing :: rest.tokens <:+
        (Body.block phrase opening inner closing rest).tokens :=
      (List.suffix_cons _ _).trans (List.suffix_append _ _)
    rcases List.mem_append.mp h with h | h
    · split at h
      · exact absurd h List.not_mem_nil
      · rcases List.mem_cons.mp h with rfl | h
        · exact (List.prefix_append _ _).isInfix
        · exact (ihInner h).trans ((List.prefix_append _ _).isInfix.trans hbody.isInfix)
    · have hrest : rest.tokens <:+ inner.tokens ++ .closeBrace closing :: rest.tokens :=
        (List.suffix_cons _ _).trans (List.suffix_append _ _)
      exact (ih h).trans (hrest.trans hbody).isInfix

variable {text : List Char}

/-- `a.Writes p written` — in the text with the anatomy `a` the statement `p` is written as `written`:
    some pieces of the text in a row have exactly the tokens of `p`, and `written` is what is shown of
    these pieces.  So `written` holds the modifiers, the white space and the strings of the statement as
    they stand in the text, and of what the scanner skips it lacks only the comments. -/
def Writes (a : Anatomy text) (p : Phrase) (written : List Char) : Prop :=
  ∃ before ps after, a.pieces = before ++ (ps ++ after) ∧
    tokens (before.flatMap Piece.chars).length ps = p.tokens ∧ written = ps.flatMap Piece.shown

/-- Every statement that is kept is written somewhere in the text: some pieces in a row have its
    tokens. -/
theorem exists_writes (a : Anatomy text) {o : Occurrence} (ho : o ∈ a.kept) :
    ∃ written, a.Writes o.phrase written := by
  obtain ⟨front, back, htokens⟩ := Body.infix_of_kept ho
  rw [a.tokens_eq, List.append_assoc] at htokens
  obtain ⟨before, rest, hpieces, -, hrest⟩ := exists_pieces_of_tokens htokens.symm
  obtain ⟨ps, after, rfl, hps, -⟩ := exists_pieces_of_tokens hrest
  rw [Nat.zero_add] at hps
  exact ⟨_, before, ps, after, hpieces, hps, rfl⟩

/-- **What the scanner keeps of a statement is what is written, stripped** of the white space
    outside strings.  So a statement can be compared with its text, which has no comments left. -/
theorem Writes.strip_eq {a : Anatomy text} {p : Phrase} {written : List Char}
    (h : a.Writes p written) : strip written = p.chars := by
  obtain ⟨before, ps, after, -, htokens, rfl⟩ := h
  unfold Phrase.chars
  rw [← htokens]
  exact stripFrom_shown rfl rfl _ ps

end Anatomy

end SolidExport
