/-
  A text cut into pieces: white space, comments, strings and single characters.

  A piece is what the scanner takes in one turn.  `Cut pieces text rest` says that a text begins with
  some pieces and that `rest` is left.  The rest has a say in it: a slash is a character by itself
  only if it opens no comment, and a line comment goes up to the end of its line.  So a text can be
  cut in one way only (`Cut.align`).  Every text can be cut up to its end, or up to a string or a
  comment that is never closed (`exists_cut`).

  The pieces that are kept are the tokens of a text, each with the place where it begins (`tokens`).
-/
import SolidExport.Proofs.Literal.Unique
import SolidExport.Proofs.Statement

namespace SolidExport.Anatomy

open Source (Mark StopsAt)

/-! ## Pieces -/

/-- `ClosesNothing body` — a text that may stand in a comment between its two marks: the closing one
    is not in it. -/
def ClosesNothing (body : List Char) : Prop := ¬['*', '/'] <:+: body

/-- A piece of a text: white space, a comment of either kind, a string, or any other character by
    itself. -/
inductive Piece where
  | blank (c : Char) (isBlank : Text.isBlank c = true)
  | lineComment (body : List Char) (oneLine : '\n' ∉ body)
  | blockComment (body : List Char) (unclosed : ClosesNothing body)
  | glyph (c : Char) (free : c ≠ '"') (solid : Text.isBlank c = false)
  | string (marks : List Mark)

namespace Piece

def chars : Piece → List Char
  | .blank c _ => [c]
  | .lineComment body _ => '/' :: '/' :: body
  | .blockComment body _ => '/' :: '*' :: (body ++ ['*', '/'])
  | .glyph c _ _ => [c]
  | .string marks => '"' :: (marks.flatMap Mark.chars ++ ['"'])

/-- `EndsBefore p rest` — whether the piece `p` ends where `rest` begins.  A slash must not begin a
    comment together with what follows, and a comment to the end of the line goes on up to that end;
    any other piece ends by itself. -/
def EndsBefore : Piece → List Char → Prop
  | .glyph c _ _, rest => c = '/' → ∀ d ∈ rest.head?, d ≠ '/' ∧ d ≠ '*'
  | .lineComment .., rest => ∀ d ∈ rest.head?, d = '\n'
  | _, _ => True

/-- `chunk? p` — what is kept of the piece `p` where a statement is recorded: nothing of white space
    and of comments, and all of any other piece. -/
def chunk? : Piece → Option Chunk
  | .glyph c free _ => some (.glyph c free)
  | .string marks => some (.string marks)
  | _ => none

theorem chars_ne_nil (p : Piece) : p.chars ≠ [] := by
  cases p with
  | _ => exact List.cons_ne_nil _ _

theorem chars_of_chunk {p : Piece} {k : Chunk} (h : p.chunk? = some k) : p.chars = k.chars := by
  cases p with
  | glyph c free solid => exact Option.some.inj h ▸ rfl
  | string marks => exact Option.some.inj h ▸ rfl
  | _ => exact nomatch h

end Piece

/-- `Cut ps text rest` — the text begins with the pieces `ps`, each of which ends before what
    follows, and `rest` is left of it.  The rest is the actual one, since where a piece ends depends
    on it. -/
inductive Cut : List Piece → List Char → List Char → Prop where
  | nil (rest : List Char) : Cut [] rest rest
  | cons {p : Piece} {ps : List Piece} {text rest : List Char} (ends : p.EndsBefore text)
    (more : Cut ps text rest) : Cut (p :: ps) (p.chars ++ text) rest

namespace Cut

variable {ps qs : List Piece} {text mid rest : List Char}

theorem text_eq (h : Cut ps text rest) : text = ps.flatMap Piece.chars ++ rest := by
  induction h with
  | nil rest => rfl
  | cons _ _ ih => rw [List.flatMap_cons, List.append_assoc, ← ih]

theorem append (h : Cut ps text mid) (h' : Cut qs mid rest) : Cut (ps ++ qs) text rest := by
  induction h with
  | nil => exact h'
  | cons ends _ ih => exact .cons ends (ih h')

end Cut

/-! ## One way to cut -/

/-- The kinds of pieces, which decide how the end of a piece is found. -/
inductive Kind where
  | blank
  | lineComment
  | blockComment
  | glyph
  | string

/-- The kind of the piece that a text begins with, which its first two characters tell. -/
def Kind.of : List Char → Option Kind
  | [] => none
  | '/' :: '/' :: _ => some .lineComment
  | '/' :: '*' :: _ => some .blockComment
  | '"' :: _ => some .string
  | c :: _ => some (if Text.isBlank c then .blank else .glyph)

def Piece.kind : Piece → Kind
  | .blank .. => .blank
  | .lineComment .. => .lineComment
  | .blockComment .. => .blockComment
  | .glyph .. => .glyph
  | .string .. => .string

theorem Kind.of_cons {c : Char} (hslash : c ≠ '/') (hquote : c ≠ '"') (rest : List Char) :
    Kind.of (c :: rest) = some (if Text.isBlank c then .blank else .glyph) := by
  unfold Kind.of
  split
  · rename_i heq; exact nomatch heq
  · rename_i heq; exact absurd (List.cons.inj heq).1 hslash
  · rename_i heq; exact absurd (List.cons.inj heq).1 hslash
  · rename_i heq; exact absurd (List.cons.inj heq).1 hquote
  · rename_i heq
    obtain ⟨rfl, -⟩ := List.cons.inj heq
    rfl

/-- A slash that opens no comment, since neither a slash nor a star follows it, is a glyph like any
    other. -/
theorem Kind.of_slash {rest : List Char} (h : ∀ d ∈ rest.head?, d ≠ '/' ∧ d ≠ '*') :
    Kind.of ('/' :: rest) = some .glyph := by
  unfold Kind.of
  split
  · rename_i heq; exact nomatch heq
  · rename_i heq
    obtain ⟨-, rfl⟩ := List.cons.inj heq
    exact absurd rfl (h '/' rfl).1
  · rename_i heq
    obtain ⟨-, rfl⟩ := List.cons.inj heq
    exact absurd rfl (h '*' rfl).2
  · rename_i heq; exact absurd (List.cons.inj heq).1 (by decide)
  · rename_i heq
    obtain ⟨rfl, -⟩ := List.cons.inj heq
    rfl

theorem ne_of_isBlank {c d : Char} (hc : Text.isBlank c = true) (hd : Text.isBlank d = false) :
    c ≠ d := by
  rintro rfl
  exact absurd (hc.symm.trans hd) Bool.true_eq_false.mp

theorem Piece.kind_eq {p : Piece} {rest : List Char} (h : p.EndsBefore rest) :
    Kind.of (p.chars ++ rest) = some p.kind := by
  cases p with
  | blank c hc =>
    show Kind.of (c :: rest) = _
    rw [Kind.of_cons (ne_of_isBlank hc (by decide)) (ne_of_isBlank hc (by decide)), if_pos hc]
    rfl
  | lineComment body _ => rfl
  | blockComment body _ => rfl
  | glyph c hfree hsolid =>
    show Kind.of (c :: rest) = _
    by_cases hslash : c = '/'
    · subst hslash
      exact Kind.of_slash (h rfl)
    · rw [Kind.of_cons hslash hfree, if_neg (Bool.eq_false_iff.mp hsolid)]
      rfl
  | string marks => rfl

theorem ClosesNothing.tail {c : Char} {body : List Char} (h : ClosesNothing (c :: body)) :
    ClosesNothing body := fun hinfix => h (List.infix_cons hinfix)

/-- A comment goes up to where it is closed first: a text has one body of a comment in front of it
    at most. -/
theorem comment_unique {body body' rest rest' : List Char} (hbody : ClosesNothing body)
    (hbody' : ClosesNothing body')
    (h : body ++ '*' :: '/' :: rest = body' ++ '*' :: '/' :: rest') :
    body = body' ∧ rest = rest' := by
  -- a body that is over stands against one that goes on: then the latter holds the end of a comment
  have hshort : ∀ {c : Char} {more tail tail' : List Char}, ClosesNothing (c :: more) →
      '*' :: '/' :: tail ≠ c :: (more ++ '*' :: '/' :: tail') := by
    intro c more tail tail' hmore heq
    obtain ⟨rfl, hrest⟩ := List.cons.inj heq
    cases more with
    | nil => exact absurd (List.cons.inj hrest).1 (by decide)
    | cons d more =>
      obtain ⟨rfl, -⟩ := List.cons.inj hrest
      exact hmore ⟨[], more, rfl⟩
  induction body generalizing body' with
  | nil =>
    cases body' with
    | nil => exact ⟨rfl, (List.cons.inj (List.cons.inj h).2).2⟩
    | cons c body' => exact absurd h (hshort hbody')
  | cons c body ih =>
    cases body' with
    | nil => exact absurd h.symm (hshort hbody)
    | cons c' body' =>
      obtain ⟨rfl, htail⟩ := List.cons.inj h
      obtain ⟨rfl, hrest⟩ := ih hbody.tail hbody'.tail htail
      exact ⟨rfl, hrest⟩

/-- **No piece stands where another one does.**  Two pieces that end by themselves in front of their
    rests are the same if the texts are, so there is one way at most to cut a text. -/
theorem Piece.unique {p q : Piece} {rest rest' : List Char} (hp : p.EndsBefore rest)
    (hq : q.EndsBefore rest') (h : p.chars ++ rest = q.chars ++ rest') : p = q ∧ rest = rest' := by
  have hkind : p.kind = q.kind :=
    Option.some.inj ((kind_eq hp).symm.trans ((congrArg Kind.of h).trans (kind_eq hq)))
  cases p with
  | blank c hc =>
    cases q with
    | blank c' hc' =>
      obtain ⟨rfl, hrest⟩ := List.cons.inj h
      exact ⟨rfl, hrest⟩
    | _ => exact nomatch hkind
  | glyph c free solid =>
    cases q with
    | glyph c' free' solid' =>
      obtain ⟨rfl, hrest⟩ := List.cons.inj h
      exact ⟨rfl, hrest⟩
    | _ => exact nomatch hkind
  | lineComment body hbody =>
    cases q with
    | lineComment body' hbody' =>
      have hline : ∀ {b : List Char}, '\n' ∉ b → ∀ c ∈ b, (c != '\n') = true := by
        intro b hb c hc
        rw [bne_iff_ne]
        rintro rfl
        exact hb hc
      have hstop : ∀ {r : List Char}, (∀ d ∈ r.head?, d = '\n') → StopsAt (· != '\n') r := by
        intro r hr d hd
        rw [hr d hd]
        rfl
      obtain ⟨rfl, hrest⟩ := Source.span_unique (hline hbody) (hline hbody') (hstop hp) (hstop hq)
        (List.cons.inj (List.cons.inj h).2).2
      exact ⟨rfl, hrest⟩
    | _ => exact nomatch hkind
  | blockComment body hbody =>
    cases q with
    | blockComment body' hbody' =>
      have htail : (body ++ ['*', '/']) ++ rest = (body' ++ ['*', '/']) ++ rest' :=
        (List.cons.inj (List.cons.inj h).2).2
      rw [List.append_assoc, List.append_assoc] at htail
      obtain ⟨rfl, hrest⟩ := comment_unique hbody hbody' htail
      exact ⟨rfl, hrest⟩
    | _ => exact nomatch hkind
  | string marks =>
    cases q with
    | string marks' =>
      have htail : (marks.flatMap Mark.chars ++ ['"']) ++ rest
          = (marks'.flatMap Mark.chars ++ ['"']) ++ rest' := (List.cons.inj h).2
      rw [List.append_assoc, List.append_assoc] at htail
      obtain ⟨rfl, hrest⟩ := Source.marks_unique htail
      exact ⟨rfl, hrest⟩
    | _ => exact nomatch hkind

/-- **A text is cut in one way.**  Pieces that a text begins with are the first of those that the
    whole text is cut into. -/
theorem Cut.align {ps us : List Piece} {text rest : List Char} (h : Cut ps text rest)
    (hall : Cut us text []) : ∃ qs, us = ps ++ qs ∧ Cut qs rest [] := by
  induction h generalizing us with
  | nil rest => exact ⟨us, rfl, hall⟩
  | @cons p ps text rest ends more ih =>
    have htext := hall.text_eq
    cases us with
    | nil => exact absurd (List.append_eq_nil_iff.mp htext).1 p.chars_ne_nil
    | cons u us =>
      generalize hwhole : p.chars ++ text = whole at hall
      cases hall with
      | cons ends' more' =>
        obtain ⟨rfl, rfl⟩ := Piece.unique ends ends' hwhole
        obtain ⟨qs, rfl, hqs⟩ := ih more'
        exact ⟨qs, rfl, hqs⟩

/-! ## Cutting any text -/

/-- A text that opens a string or a comment and never closes it, so that no piece can be cut from
    it. -/
def IsUnended (text : List Char) : Prop :=
  (∃ escaped, IsOpenString text escaped) ∨ ∃ body, text = '/' :: '*' :: body ∧ ClosesNothing body

/-- Behind a quote, the text `cs` closes the string somewhere or ends in it, perhaps behind a
    backslash. -/
theorem string_or_open : ∀ cs : List Char,
    (∃ (marks : List Mark) (rest : List Char), cs = marks.flatMap Mark.chars ++ '"' :: rest) ∨
    ∃ (marks : List Mark) (escaped : Bool),
      cs = marks.flatMap Mark.chars ++ if escaped then ['\\'] else []
  | [] => Or.inr ⟨[], false, rfl⟩
  | c :: cs => by
    by_cases hslash : c = '\\'
    · subst hslash
      cases cs with
      | nil => exact Or.inr ⟨[], true, rfl⟩
      | cons d cs =>
        rcases string_or_open cs with ⟨marks, rest, rfl⟩ | ⟨marks, escaped, hcs⟩
        · exact Or.inl ⟨.escaped d :: marks, rest, rfl⟩
        · exact Or.inr ⟨.escaped d :: marks, escaped, congrArg ('\\' :: d :: ·) hcs⟩
    · by_cases hquote : c = '"'
      · subst hquote
        exact Or.inl ⟨[], cs, rfl⟩
      · rcases string_or_open cs with ⟨marks, rest, rfl⟩ | ⟨marks, escaped, hcs⟩
        · exact Or.inl ⟨.bare c ⟨hquote, hslash⟩ :: marks, rest, rfl⟩
        · exact Or.inr ⟨.bare c ⟨hquote, hslash⟩ :: marks, escaped, congrArg (c :: ·) hcs⟩

theorem closesNothing_cons {c : Char} {body : List Char} (h : ClosesNothing body)
    (hfirst : c = '*' → body.head? ≠ some '/') : ClosesNothing (c :: body) := by
  intro hinfix
  rcases List.infix_cons_iff.mp hinfix with hfront | hinfix
  · obtain ⟨hc, htail⟩ := List.cons_prefix_cons.mp hfront
    obtain ⟨more, rfl⟩ := htail
    exact hfirst hc.symm rfl
  · exact h hinfix

/-- Behind the opening of a comment, the text `cs` closes it somewhere or ends in it. -/
theorem comment_or_open (cs : List Char) :
    (∃ body rest, cs = body ++ '*' :: '/' :: rest ∧ ClosesNothing body) ∨ ClosesNothing cs := by
  induction cs with
  | nil => exact Or.inr fun h => absurd (List.infix_nil.mp h) (List.cons_ne_nil _ _)
  | cons c cs ih =>
    by_cases hfirst : c = '*' → cs.head? ≠ some '/'
    · rcases ih with ⟨body, rest, rfl, hbody⟩ | hcs
      · refine Or.inl ⟨c :: body, rest, rfl, closesNothing_cons hbody fun hc hhead => ?_⟩
        refine hfirst hc ?_
        rw [List.head?_append, hhead]
        rfl
      · exact Or.inr (closesNothing_cons hcs hfirst)
    · obtain ⟨rfl, hhead⟩ : c = '*' ∧ cs.head? = some '/' := by
        constructor
        · by_contra hc
          exact hfirst fun hc' => absurd hc' hc
        · by_contra hhead
          exact hfirst fun _ => hhead
      obtain ⟨rest, rfl⟩ := List.head?_eq_some_iff.mp hhead
      exact Or.inl ⟨[], rest, rfl, fun h => absurd (List.infix_nil.mp h) (List.cons_ne_nil _ _)⟩

/-- A line comment goes up to the end of its line: every text falls into one line and what follows
    it, which is nothing or begins with the line end. -/
theorem exists_lineComment (cs : List Char) :
    ∃ body rest, cs = body ++ rest ∧ '\n' ∉ body ∧ ∀ d ∈ rest.head?, d = '\n' := by
  refine ⟨cs.takeWhile (· != '\n'), cs.dropWhile (· != '\n'), List.takeWhile_append_dropWhile.symm,
    fun hmem => ?_, fun d hd => ?_⟩
  · exact absurd (List.mem_takeWhile_imp hmem) (by decide)
  · have hstop := List.head?_dropWhile_not (· != '\n') cs
    rw [Option.mem_def.mp hd] at hstop
    simpa using hstop

/-- A text that is not empty begins with a piece, or it opens something that is never ended.  These
    are the two ways that cutting goes on. -/
theorem exists_piece {text : List Char} (h : text ≠ []) :
    (∃ p rest, text = Piece.chars p ++ rest ∧ p.EndsBefore rest) ∨ IsUnended text := by
  obtain ⟨c, cs, rfl⟩ := List.exists_cons_of_ne_nil h
  by_cases hquote : c = '"'
  · subst hquote
    rcases string_or_open cs with ⟨marks, rest, rfl⟩ | ⟨marks, escaped, rfl⟩
    · exact Or.inl ⟨.string marks, rest, by simp [Piece.chars], trivial⟩
    · exact Or.inr (Or.inl ⟨escaped, marks, rfl⟩)
  · cases hblank : Text.isBlank c with
    | true => exact Or.inl ⟨.blank c hblank, cs, rfl, trivial⟩
    | false =>
      by_cases hcomment : c = '/' → ∀ d ∈ cs.head?, d ≠ '/' ∧ d ≠ '*'
      · exact Or.inl ⟨.glyph c hquote hblank, cs, rfl, hcomment⟩
      · -- a slash, and behind it another one or a star
        obtain ⟨rfl, d, hd, hopens⟩ :
            c = '/' ∧ ∃ d, cs.head? = some d ∧ (d = '/' ∨ d = '*') := by
          by_contra hno
          refine hcomment fun hc d hd => ?_
          constructor
          · rintro rfl
            exact hno ⟨hc, _, hd, Or.inl rfl⟩
          · rintro rfl
            exact hno ⟨hc, _, hd, Or.inr rfl⟩
        obtain ⟨cs, rfl⟩ := List.head?_eq_some_iff.mp hd
        rcases hopens with rfl | rfl
        · obtain ⟨body, rest, rfl, hbody, hrest⟩ := exists_lineComment cs
          exact Or.inl ⟨.lineComment body hbody, rest, rfl, hrest⟩
        · rcases comment_or_open cs with ⟨body, rest, rfl, hbody⟩ | hopen
          · exact Or.inl ⟨.blockComment body hbody, rest, by simp [Piece.chars], trivial⟩
          · exact Or.inr (Or.inr ⟨cs, rfl, hopen⟩)

/-- **Every text can be cut** into pieces, up to its end or up to something that is never ended. -/
theorem exists_cut (text : List Char) :
    ∃ ps rest, Cut ps text rest ∧ (rest = [] ∨ IsUnended rest) := by
  by_cases hnil : text = []
  · exact ⟨[], [], hnil ▸ .nil [], Or.inl rfl⟩
  · rcases exists_piece hnil with ⟨p, more, htext, hends⟩ | hunended
    · have hlt : more.length < text.length := by
        have hpos := List.length_pos_iff.mpr p.chars_ne_nil
        rw [htext, List.length_append]
        omega
      obtain ⟨ps, rest, hcut, hrest⟩ := exists_cut more
      exact ⟨p :: ps, rest, htext ▸ .cons hends hcut, hrest⟩
    · exact ⟨[], text, .nil text, Or.inr hunended⟩
termination_by text.length

/-! ## Tokens -/

/-- A chunk that is kept of a text, and the number of characters in front of it in the text. -/
structure Token where
  chunk : Chunk
  start : Nat

/-- `t.move f` — the token `t` in another text, where `f` says for each place of the first where it
    is in the second. -/
def Token.move (f : Nat → Nat) (t : Token) : Token := ⟨t.chunk, f t.start⟩

/-- `tokens offset ps` — what is kept of the pieces `ps`, each with its place in the text, if the
    first piece begins at `offset`. -/
def tokens (offset : Nat) : List Piece → List Token
  | [] => []
  | p :: ps => (p.chunk?.map (Token.mk · offset)).toList ++ tokens (offset + p.chars.length) ps

theorem tokens_append (offset : Nat) (ps qs : List Piece) : tokens offset (ps ++ qs) =
    tokens offset ps ++ tokens (offset + (ps.flatMap Piece.chars).length) qs := by
  induction ps generalizing offset with
  | nil => rfl
  | cons p ps ih =>
    rw [List.cons_append, tokens, tokens, ih, List.append_assoc, List.flatMap_cons,
      List.length_append, Nat.add_assoc]

/-- White space is cut into pieces that are no tokens, whatever the `rest` behind it is. -/
theorem exists_blanks {filler : List Char} (hblank : ∀ c ∈ filler, Text.isBlank c = true)
    (rest : List Char) :
    ∃ ws, Cut ws (filler ++ rest) rest ∧ ∀ offset, tokens offset ws = [] := by
  induction filler with
  | nil => exact ⟨[], .nil rest, fun _ => rfl⟩
  | cons c filler ih =>
    obtain ⟨ws, hws, htokens⟩ := ih fun d hd => hblank d (List.mem_cons_of_mem c hd)
    refine ⟨.blank c (hblank c List.mem_cons_self) :: ws, .cons trivial hws, fun offset => ?_⟩
    exact htokens (offset + 1)

/-- Pieces that begin `k` characters further on have their tokens `k` characters further on, and no
    others. -/
theorem tokens_add (offset k : Nat) (ps : List Piece) :
    tokens (offset + k) ps = (tokens offset ps).map (Token.move (· + k)) := by
  induction ps generalizing offset with
  | nil => rfl
  | cons p ps ih =>
    rw [tokens, tokens, Nat.add_right_comm, ih, List.map_append]
    congr 1
    cases p.chunk? with
    | none => rfl
    | some k => rfl

/-- A token of some pieces that begin at `offset` lies between there and their end. -/
theorem start_of_mem_tokens {offset : Nat} {ps : List Piece} {t : Token}
    (ht : t ∈ tokens offset ps) :
    offset ≤ t.start ∧ t.start + t.chunk.chars.length ≤ offset + (ps.flatMap Piece.chars).length := by
  induction ps generalizing offset with
  | nil => exact absurd ht List.not_mem_nil
  | cons p ps ih =>
    rw [List.flatMap_cons, List.length_append]
    rcases List.mem_append.mp ht with ht | ht
    · rw [Option.mem_toList, Option.map_eq_some_iff] at ht
      obtain ⟨k, hk, rfl⟩ := ht
      have hchars := Piece.chars_of_chunk hk
      dsimp only
      rw [← hchars]
      omega
    · have hrest := ih ht
      omega

/-- The tokens of a text stand in the order of their places, no two at the same. -/
theorem tokens_sorted (offset : Nat) (ps : List Piece) :
    (tokens offset ps).Pairwise fun a b => a.start < b.start := by
  induction ps generalizing offset with
  | nil => exact List.Pairwise.nil
  | cons p ps ih =>
    have hpos := List.length_pos_iff.mpr p.chars_ne_nil
    refine List.pairwise_append.mpr ⟨?_, ih _, fun a ha b hb => ?_⟩
    · cases p.chunk? with
      | none => exact List.Pairwise.nil
      | some k => exact List.pairwise_singleton _ _
    · rw [Option.mem_toList, Option.map_eq_some_iff] at ha
      obtain ⟨k, -, rfl⟩ := ha
      have hb := (start_of_mem_tokens hb).1
      dsimp only
      omega

end SolidExport.Anatomy
