/-
  White space and comments do not matter.

  Where a piece may begin, white space can be put in, and a comment too unless what stands before
  would take its first character for its own: a slash that is a character by itself, or a line
  comment.  The tokens of the text stay the same, and those behind the place move on
  (`Cut.insert`, `tokens_insert`).  So the text is accepted as before, with the same statements, and
  a statement that begins behind the place is as many lines further down as were put in
  (`scan_ignores_filler`).
-/
import SolidExport.Proofs.Anatomy.Scan

namespace SolidExport

open Source (lineEnds lineEnds_append)

namespace Anatomy

variable {ps qs : List Piece} {p : Piece} {text front rest filler : List Char}

/-! ## What may be put in -/

/-- `p.IsOpenEnded` — the piece `p` may take what follows for its own: a slash may become a comment,
    and a comment to the end of the line goes on. -/
def Piece.IsOpenEnded : Piece → Prop
  | .glyph c _ _ => c = '/'
  | .lineComment .. => True
  | _ => False

/-- `IsFiller ps filler` — what may be put in behind the pieces `ps`: white space, or a comment if
    the last of them is not open at its end. -/
def IsFiller (ps : List Piece) (filler : List Char) : Prop :=
  (∀ c ∈ filler, Text.isBlank c = true) ∨
  (∃ body, ClosesNothing body ∧ filler = '/' :: '*' :: (body ++ ['*', '/'])) ∧
    ∀ p ∈ ps.getLast?, ¬p.IsOpenEnded

/-! ## Another rest -/

/-- Only the next character matters to where the piece `p` ends: any two rests with the same first
    one will do. -/
theorem Piece.EndsBefore.congr (h : p.EndsBefore front) (hhead : front.head? = rest.head?) :
    p.EndsBefore rest := by
  cases p with
  | glyph c free solid =>
    intro hc d hd
    exact h hc d (hhead ▸ hd)
  | lineComment body oneLine =>
    intro d hd
    exact h d (hhead ▸ hd)
  | blank | blockComment | string => trivial

theorem Piece.endsBefore_of_not_openEnded (h : ¬p.IsOpenEnded) (rest : List Char) :
    p.EndsBefore rest := by
  cases p with
  | glyph c free solid => exact fun hc => absurd hc h
  | lineComment body oneLine => exact absurd trivial h
  | blank | blockComment | string => trivial

/-- The last of the pieces that a text is cut into ends in front of the rest, by itself. -/
theorem Cut.endsBefore (h : Cut ps text rest) (hp : p ∈ ps.getLast?) : p.EndsBefore rest := by
  induction h with
  | nil => exact nomatch hp
  | @cons q ps text rest ends more ih =>
    cases ps with
    | nil =>
      cases more
      obtain rfl : q = p := Option.some.inj hp
      exact ends
    | cons q' ps =>
      rw [List.getLast?_cons_cons] at hp
      exact ih hp

/-- The pieces `ps` stay if the last of them ends in front of another rest as well.  What follows
    never changes how the earlier ones are cut. -/
theorem Cut.replace (h : Cut ps text rest) (filler : List Char)
    (hlast : ∀ p ∈ ps.getLast?, p.EndsBefore filler) :
    Cut ps (ps.flatMap Piece.chars ++ filler) filler := by
  induction h with
  | nil => exact .nil filler
  | @cons q ps text rest ends more ih =>
    rw [List.flatMap_cons, List.append_assoc]
    cases ps with
    | nil => exact .cons (hlast q rfl) (.nil filler)
    | cons q' ps =>
      have hlast' : ∀ p ∈ (q' :: ps).getLast?, p.EndsBefore filler := by
        rw [List.getLast?_cons_cons] at hlast
        exact hlast
      refine .cons (ends.congr ?_) (ih hlast')
      -- another piece follows, and its first character stays
      rw [more.text_eq, List.flatMap_cons, List.append_assoc, List.append_assoc]
      obtain ⟨c, cs, hchars⟩ := List.exists_cons_of_ne_nil q'.chars_ne_nil
      rw [hchars]
      rfl

theorem Cut.split (h : Cut (ps ++ qs) text rest) : ∃ mid, Cut ps text mid ∧ Cut qs mid rest := by
  induction ps generalizing text with
  | nil => exact ⟨text, .nil text, h⟩
  | cons p ps ih =>
    cases h with
    | cons ends more =>
      obtain ⟨mid, hps, hqs⟩ := ih more
      exact ⟨mid, .cons ends hps, hqs⟩

/-! ## Putting something in -/

/-- White space behind a line comment goes into it, up to the first line end, and what is left is
    pieces of its own.  No token comes or goes by that. -/
theorem Cut.insert_lineComment {body : List Char} {oneLine : '\n' ∉ body}
    (h : Cut (ps ++ [.lineComment body oneLine]) text rest)
    (hblank : ∀ c ∈ filler, Text.isBlank c = true) :
    ∃ qs, Cut qs ((ps ++ [Piece.lineComment body oneLine]).flatMap Piece.chars ++ (filler ++ rest))
      rest ∧ tokens 0 qs = tokens 0 (ps ++ [Piece.lineComment body oneLine]) := by
  obtain ⟨mid, hps, hcomment⟩ := h.split
  have hends : ∀ d ∈ rest.head?, d = '\n' := hcomment.endsBefore rfl
  have hmid := hcomment.text_eq
  obtain ⟨more, behind, rfl, hmore, hbehind⟩ := exists_lineComment filler
  obtain ⟨ws, hws, htokens⟩ :=
    exists_blanks (fun c hc => hblank c (List.mem_append_right more hc)) rest
  have honeLine : '\n' ∉ body ++ more := by
    rw [List.mem_append]
    exact fun hmem => hmem.elim oneLine hmore
  -- the longer comment ends at a line end that is put in, or where the shorter did
  have hstop : (Piece.lineComment (body ++ more) honeLine).EndsBefore (behind ++ rest) := by
    intro d hd
    cases behind with
    | nil => exact hends d hd
    | cons c behind => exact hbehind d hd
  have hfront : ∀ p ∈ ps.getLast?,
      p.EndsBefore ((Piece.lineComment (body ++ more) honeLine).chars ++ (behind ++ rest)) :=
    fun p hp => (hps.endsBefore hp).congr (by rw [hmid]; rfl)
  refine ⟨ps ++ .lineComment (body ++ more) honeLine :: ws, ?_, ?_⟩
  · have hcut := (hps.replace _ hfront).append (.cons hstop hws)
    simpa [Piece.chars] using hcut
  · rw [tokens_append, tokens_append]
    exact congrArg (tokens 0 ps ++ ·) (htokens _)

/-- **Filler is cut off again**: the tokens in front of the rest are those that were there. -/
theorem Cut.insert (h : Cut ps (front ++ rest) rest) (hfiller : IsFiller ps filler) :
    ∃ qs, Cut qs (front ++ (filler ++ rest)) rest ∧ tokens 0 qs = tokens 0 ps := by
  obtain rfl : front = ps.flatMap Piece.chars := List.append_cancel_right h.text_eq
  -- pieces of which none is kept are put behind
  have hbehind : ∀ ws, Cut ws (filler ++ rest) rest → (∀ offset, tokens offset ws = []) →
      (∀ p ∈ ps.getLast?, p.EndsBefore (filler ++ rest)) →
      ∃ qs, Cut qs (ps.flatMap Piece.chars ++ (filler ++ rest)) rest ∧
        tokens 0 qs = tokens 0 ps := by
    intro ws hws htokens hlast
    refine ⟨ps ++ ws, (h.replace _ hlast).append hws, ?_⟩
    rw [tokens_append, htokens, List.append_nil]
  rcases hfiller with hblank | ⟨⟨body, hbody, rfl⟩, hclosed⟩
  · by_cases hcomment : ∃ body oneLine, ps.getLast? = some (.lineComment body oneLine)
    · obtain ⟨body, oneLine, hlast⟩ := hcomment
      obtain ⟨init, rfl⟩ := List.getLast?_eq_some_iff.mp hlast
      exact h.insert_lineComment hblank
    · obtain ⟨ws, hws, htokens⟩ := exists_blanks hblank rest
      refine hbehind ws hws htokens fun p hp => ?_
      have hends := h.endsBefore hp
      cases p with
      | glyph c free solid =>
        intro hc d hd
        cases filler with
        | nil => exact hends hc d hd
        | cons e filler =>
          obtain rfl : e = d := Option.some.inj hd
          have he := hblank e List.mem_cons_self
          exact ⟨ne_of_isBlank he (by decide), ne_of_isBlank he (by decide)⟩
      | lineComment body oneLine => exact absurd ⟨body, oneLine, hp⟩ hcomment
      | blank | blockComment | string => trivial
  · have hcut : Cut [.blockComment body hbody] ('/' :: '*' :: (body ++ ['*', '/']) ++ rest) rest :=
      .cons trivial (.nil rest)
    exact hbehind _ hcut (fun _ => rfl) fun p hp =>
      Piece.endsBefore_of_not_openEnded (hclosed p hp) _

/-- `shift place count i` — where the place `i` comes to be if `count` characters are put in at
    `place`. -/
def shift (place count i : Nat) : Nat := if i < place then i else i + count

/-- `unshift place count i` — where the place `i` was before `count` characters were put in at
    `place`. -/
def unshift (place count i : Nat) : Nat := if i < place then i else i - count

theorem unshift_shift (place count i : Nat) : unshift place count (shift place count i) = i := by
  unfold unshift shift
  by_cases hi : i < place
  · rw [if_pos hi, if_pos hi]
  · rw [if_neg hi, if_neg (by omega), Nat.add_sub_cancel]

/-- The tokens of the pieces `us` behind the place where `filler` was put in move on by its length,
    and those before it stay. -/
theorem tokens_insert (us : List Piece) (h : Cut ps (front ++ rest) rest)
    (h' : Cut qs (front ++ (filler ++ rest)) rest) (htokens : tokens 0 qs = tokens 0 ps) :
    tokens 0 (qs ++ us)
      = (tokens 0 (ps ++ us)).map (Token.move (shift front.length filler.length)) := by
  have hps : ps.flatMap Piece.chars = front := (List.append_cancel_right h.text_eq).symm
  have hqs : qs.flatMap Piece.chars = front ++ filler := by
    have htext := h'.text_eq
    rw [← List.append_assoc] at htext
    exact (List.append_cancel_right htext).symm
  rw [tokens_append, tokens_append, htokens, hps, hqs, List.map_append]
  congr 1
  · refine (List.map_id _).symm.trans (List.map_congr_left fun t ht => ?_)
    have hbound := (start_of_mem_tokens ht).2
    have hpos := List.length_pos_iff.mpr t.chunk.chars_ne_nil
    rw [hps] at hbound
    have hbefore : t.start < front.length := by omega
    show t = ⟨t.chunk, shift _ _ t.start⟩
    rw [shift, if_pos hbefore]
  · rw [List.length_append, ← Nat.add_assoc, tokens_add]
    refine List.map_congr_left fun t ht => ?_
    have hbound := (start_of_mem_tokens ht).1
    have hbehind : ¬t.start < front.length := by omega
    show (⟨t.chunk, t.start + filler.length⟩ : Token) = ⟨t.chunk, shift _ _ t.start⟩
    rw [shift, if_neg hbehind]

/-- Behind the place where `filler` was put in there are more lines, as many as it has line ends;
    before it there are not. -/
theorem lineAt_insert (front filler rest : List Char) (i : Nat) :
    lineAt (front ++ (filler ++ rest)) (shift front.length filler.length i)
      = lineAt (front ++ rest) i + if front.length ≤ i then lineEnds filler else 0 := by
  unfold lineAt shift
  by_cases hi : i < front.length
  · rw [if_pos hi, if_neg (Nat.not_le.mpr hi), List.take_append_of_le_length (Nat.le_of_lt hi),
      List.take_append_of_le_length (Nat.le_of_lt hi)]
    rfl
  · have hle := Nat.not_lt.mp hi
    obtain ⟨j, rfl⟩ := Nat.exists_eq_add_of_le hle
    rw [if_neg hi, if_pos hle, List.take_length_add_append, Nat.add_assoc, Nat.add_comm j,
      List.take_length_add_append, List.take_length_add_append, lineEnds_append, lineEnds_append,
      lineEnds_append]
    omega

end Anatomy

namespace Statement

open Anatomy (Cut IsFiller Token Occurrence lineAt shift unshift)

section

variable {ps : List Anatomy.Piece} {front rest filler : String}
  (hcut : Cut ps (front ++ rest).toList rest.toList) (hfiller : IsFiller ps filler.toList)
include hcut hfiller

/-- The pieces in front of the place where something was put in: the text up to there can be cut
    with it, and the tokens of whatever follows are only moved. -/
theorem exists_insert : ∃ qs, Cut qs (front ++ filler ++ rest).toList rest.toList ∧
    ∀ us, Anatomy.tokens 0 (qs ++ us) = (Anatomy.tokens 0 (ps ++ us)).map
      (Token.move (shift front.toList.length filler.toList.length)) := by
  have hcut' := hcut
  rw [String.toList_append] at hcut'
  obtain ⟨qs, hqs, htokens⟩ := hcut'.insert hfiller
  refine ⟨qs, ?_, fun us => Anatomy.tokens_insert us hcut' hqs htokens⟩
  rwa [String.toList_append, String.toList_append, List.append_assoc]

/-- The statements of the text with something put in, by the anatomy of the text without it. -/
theorem scan_insert (a : Anatomy (front ++ rest).toList) :
    (scan (front ++ filler ++ rest)).result = .ok (a.kept.map fun o =>
      (o.statement (lineAt (front ++ rest).toList)).raise
        (if front.toList.length ≤ o.phrase.start then lineEnds filler.toList else 0)) := by
  obtain ⟨qs, hqs, htokens⟩ := exists_insert hcut hfiller
  obtain ⟨us, hus, hrest⟩ := hcut.align a.cut
  have hmoved := htokens us
  rw [← hus, ← a.tokens_eq] at hmoved
  have hscan := (scan_of_body (hqs.append hrest) hmoved).1
  refine hscan.trans (congrArg Except.ok (List.map_congr_left fun o _ => ?_))
  show (⟨o.phrase.signature, o.level, (lineAt _ (shift _ _ o.phrase.start) : Nat)⟩ : Statement) = _
  have htext : (front ++ filler ++ rest).toList
      = front.toList ++ (filler.toList ++ rest.toList) := by
    rw [String.toList_append, String.toList_append, List.append_assoc]
  rw [htext, Anatomy.lineAt_insert, Int.natCast_add, ← String.toList_append]
  rfl

/-- The body of the text with something put in, moved back to where it was, is one of the text
    without.  So nothing that is put in makes a text acceptable. -/
theorem exists_anatomy_of_insert (a : Anatomy (front ++ filler ++ rest).toList) :
    Nonempty (Anatomy (front ++ rest).toList) := by
  obtain ⟨qs, hqs, htokens⟩ := exists_insert hcut hfiller
  obtain ⟨us, hus, hrest⟩ := hqs.align a.cut
  have hmoved := htokens us
  rw [← hus, ← a.tokens_eq] at hmoved
  refine ⟨⟨ps ++ us, a.body.move (unshift front.toList.length filler.toList.length),
    hcut.append hrest, ?_⟩⟩
  rw [Anatomy.Body.tokens_move, hmoved, List.map_map]
  refine (List.map_congr_left fun t _ => ?_).trans (List.map_id _)
  show (⟨t.chunk, unshift _ _ (shift _ _ t.start)⟩ : Token) = t
  rw [Anatomy.unshift_shift]

end

/-- **White space and comments do not matter.**  Where a piece may begin, white space is put in, or
    a comment unless a slash or a line comment stands right before.  Then the text is accepted if
    and only if it was, with the same signatures and levels; and the line of a statement grows by
    the line ends that were put in if its first character stands behind them, and else stays. -/
theorem scan_ignores_filler {ps : List Anatomy.Piece} {front rest filler : String}
    (hcut : Cut ps (front ++ rest).toList rest.toList) (hfiller : IsFiller ps filler.toList) :
    ((∃ ss, (scan (front ++ filler ++ rest)).result = .ok ss) ↔
      ∃ ss, (scan (front ++ rest)).result = .ok ss) ∧
    ∀ ss, (scan (front ++ rest)).result = .ok ss →
      Nonempty (Anatomy (front ++ rest).toList) ∧
      ∀ a : Anatomy (front ++ rest).toList,
        ss = a.kept.map (Occurrence.statement (lineAt (front ++ rest).toList)) ∧
        (scan (front ++ filler ++ rest)).result = .ok (a.kept.map fun o =>
          (o.statement (lineAt (front ++ rest).toList)).raise
            (if front.toList.length ≤ o.phrase.start then lineEnds filler.toList else 0)) := by
  refine ⟨⟨?_, ?_⟩, ?_⟩
  · rintro ⟨ss, hss⟩
    obtain ⟨a⟩ := exists_anatomy hss
    obtain ⟨b⟩ := exists_anatomy_of_insert hcut hfiller a
    exact ⟨_, (scan_of_anatomy b).1⟩
  · rintro ⟨ss, hss⟩
    obtain ⟨a⟩ := exists_anatomy hss
    exact ⟨_, scan_insert hcut hfiller a⟩
  · intro ss hss
    refine ⟨exists_anatomy hss, fun a => ⟨?_, scan_insert hcut hfiller a⟩⟩
    rw [(scan_of_anatomy a).1] at hss
    exact (Except.ok.inj hss).symm

/-- White space put in behind a line comment, inside parentheses: the space makes the comment longer
    and the line end ends it earlier, so the statement `c` is a line further down and nothing else
    changes. -/
theorem scan_ignores_filler_longer_comment :
    (scan "a(//b\n);c;").result = .ok [⟨"a()", 0, 1⟩, ⟨"c", 0, 2⟩] ∧
    (scan "a(//b \n\n);c;").result = .ok [⟨"a()", 0, 1⟩, ⟨"c", 0, 3⟩] ∧
    ∀ a : Anatomy "a(//b\n);c;".toList,
      (scan "a(//b \n\n);c;").result = .ok (a.kept.map fun o =>
        (o.statement (lineAt "a(//b\n);c;".toList)).raise (if 5 ≤ o.phrase.start then 1 else 0)) := by
  have hcut : Cut [.glyph 'a' (by decide) (by decide), .glyph '(' (by decide) (by decide),
      .lineComment ['b'] (by decide)] ("a(//b" ++ "\n);c;").toList "\n);c;".toList := by
    refine .cons (fun h => absurd h (by decide)) (.cons (fun h => absurd h (by decide)) ?_)
    refine .cons (fun d hd => ?_) (.nil _)
    exact (Option.some.inj hd).symm
  have hscan : (scan ("a(//b" ++ "\n);c;")).result = .ok [⟨"a()", 0, 1⟩, ⟨"c", 0, 2⟩] := by rfl
  have hblank : ∀ c ∈ " \n".toList, Text.isBlank c = true := List.all_eq_true.mp (by decide)
  obtain ⟨-, hsame⟩ := scan_ignores_filler hcut (.inl hblank)
  exact ⟨hscan, by rfl, fun a => ((hsame _ hscan).2 a).2⟩

end Statement

end SolidExport
