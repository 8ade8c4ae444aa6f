/-
  Parameter lists are read segment by segment.

  A segment is a text that ends outside of brackets and strings and in which no comma counts.  The
  splitter takes a segment as one piece, cut at its first equals sign that counts
  (`foldl_segment`), so a list of segments with commas between them is split into the segments
  (`split_segments`), and each binds what it would bind alone (`Segment.bind`).

  A literal is a segment, however it is nested: its text is carried into the current piece at every
  depth (`Phrase.carries_chars`).
-/
import Mathlib.Data.List.Find
import SolidExport.Proofs.Literal.Sound
import SolidExport.Proofs.Source.Signature

namespace SolidExport

open Source (Carries Derivation Gap Items Phrase bracketed carries_append carries_char
  carries_closing carries_comma carries_opening closed_carries listed split_row)

/-! ## Segments -/

/-- `Depth.after cs` — the depth that the text `cs` reaches from outside of everything. -/
def Depth.after (cs : List Char) : Depth := cs.foldl Depth.step .outside

/-- `countsAt c cs i` — whether the text `cs` has the character `c` at the place `i`, outside of
    brackets and strings.  Only there a comma ends a parameter and an equals sign its name. -/
def countsAt (c : Char) (cs : List Char) (i : Nat) : Bool :=
  cs[i]? == some c && (Depth.after (cs.take i)).isOutside

/-- `IsSegment cs` — the text `cs` can be one parameter of a list: it ends outside of brackets and
    strings, and no comma in it counts. -/
structure IsSegment (cs : List Char) : Prop where
  closed : (Depth.after cs).isOutside = true
  no_comma : ∀ i < cs.length, countsAt ',' cs i = false

instance (cs : List Char) : Decidable (IsSegment cs) :=
  decidable_of_iff ((Depth.after cs).isOutside = true ∧ ∀ i < cs.length, countsAt ',' cs i = false)
    ⟨fun h => ⟨h.1, h.2⟩, fun h => ⟨h.closed, h.no_comma⟩⟩

namespace Segment

/-- `equals? cs` — the place of the first equals sign in `cs` that counts, which ends the name. -/
def equals? (cs : List Char) : Option Nat := (List.range cs.length).find? (countsAt '=' cs)

/-- `bind line index p cs` — the bindings `p` with that of the segment `cs` at the position `index`:
    the name before its first equals sign that counts, or the name of the position, is bound to the
    literal behind it.  A text that is no literal binds nothing. -/
def bind (line : Int) (index : Nat) (p : Params) (cs : List Char) : Params :=
  let (name, value) := match equals? cs with
    | some i => (String.ofList (Text.trim (cs.take i)), cs.drop (i + 1))
    | none => (Params.positionalName index, cs)
  match Literal.read? line (String.ofList value) with
  | some v => p.insert name v
  | none => p

/-- `bindings line segments` — the bindings of some segments of a list on `line`: of those that are
    not all white space, in order and counted from zero. -/
def bindings (line : Int) (segments : List (List Char)) : Params :=
  (segments.filter (!·.all Text.isBlank)).zipIdx.foldl (fun p (cs, index) => bind line index p cs) .empty

/-- `piece cs` — the piece that the segment `cs` is split off as: its name, if it has one, and its
    value. -/
def piece (cs : List Char) : Piece :=
  match equals? cs with
  | some i => ⟨some (String.ofList (cs.take i)), String.ofList (cs.drop (i + 1))⟩
  | none => ⟨none, String.ofList cs⟩

end Segment

/-! ## Counting characters -/

theorem Depth.after_snoc (cs : List Char) (c : Char) :
    Depth.after (cs ++ [c]) = (Depth.after cs).step c := by
  unfold Depth.after
  rw [List.foldl_append]
  rfl

/-- Whether the character at `i` counts depends on what stands before it, and not on what is put
    behind. -/
theorem countsAt_snoc_of_lt {c d : Char} {cs : List Char} {i : Nat} (hi : i < cs.length) :
    countsAt c (cs ++ [d]) i = countsAt c cs i := by
  unfold countsAt
  rw [List.getElem?_append_left hi, List.take_append_of_le_length (by omega)]

/-- The last character of a text counts if it is `c` and the text before it ends outside of brackets
    and strings. -/
theorem countsAt_snoc_length (c d : Char) (cs : List Char) :
    countsAt c (cs ++ [d]) cs.length = ((Depth.after cs).isOutside && d == c) := by
  unfold countsAt
  rw [List.getElem?_concat_length, List.take_left', Bool.and_comm]
  · simp
  · rfl

namespace Segment

theorem equals?_snoc (cs : List Char) (c : Char) :
    equals? (cs ++ [c]) = (equals? cs).or
      (if (Depth.after cs).isOutside && c == '=' then some cs.length else none) := by
  have hfront : (List.range cs.length).find? (countsAt '=' (cs ++ [c])) = equals? cs := by
    unfold equals?
    refine List.find?_congr fun i hi => ?_
    exact countsAt_snoc_of_lt (List.mem_range.mp hi)
  unfold equals? at hfront ⊢
  rw [List.length_append, List.length_singleton, List.range_succ, List.find?_append, hfront,
    List.find?_singleton, countsAt_snoc_length]

/-- At the place of the first counting equals sign there stands an equals sign. -/
theorem getElem?_of_equals? {cs : List Char} {i : Nat} (h : equals? cs = some i) :
    cs[i]? = some '=' := by
  have hcounts := List.find?_some h
  unfold countsAt at hcounts
  rw [Bool.and_eq_true, beq_iff_eq] at hcounts
  exact hcounts.1

theorem push_ofList (cs : List Char) (c : Char) :
    (String.ofList cs).push c = String.ofList (cs ++ [c]) := by
  rw [← String.toList_inj]
  simp

/-- **The step lemma.**  One character more of a segment goes into its piece, at the depth that the
    segment has reached. -/
theorem piece_snoc (cs : List Char) (c : Char) :
    piece (cs ++ [c]) = (piece cs).push (Depth.after cs) c := by
  unfold piece
  rw [equals?_snoc]
  cases hequals : equals? cs with
  | some i =>
    have hi : i < cs.length := (List.getElem?_eq_some_iff.mp (getElem?_of_equals? hequals)).1
    show (⟨some _, _⟩ : Piece) = Piece.push _ ⟨some _, _⟩ c
    unfold Piece.push
    rw [if_neg (by simp), List.take_append_of_le_length (by omega),
      List.drop_append_of_le_length (by omega), ← push_ofList]
  | none =>
    rw [Option.none_or]
    by_cases hcounts : ((Depth.after cs).isOutside && c == '=') = true
    · rw [if_pos hcounts]
      show (⟨some _, _⟩ : Piece) = Piece.push _ ⟨none, _⟩ c
      unfold Piece.push
      rw [if_pos (by simpa using hcounts)]
      simp
    · rw [if_neg hcounts]
      show (⟨none, _⟩ : Piece) = Piece.push _ ⟨none, _⟩ c
      unfold Piece.push
      rw [if_neg (by simpa using hcounts), ← push_ofList]

/-- A piece is blank exactly if its segment is, so both take a position or neither does. -/
theorem isBlank_piece (cs : List Char) : (piece cs).isBlank = cs.all Text.isBlank := by
  unfold piece
  cases hequals : equals? cs with
  | none => simp [Piece.isBlank, Text.isAllBlank]
  | some i =>
    have hmem : '=' ∈ cs := List.mem_of_getElem? (getElem?_of_equals? hequals)
    have hall : cs.all Text.isBlank = false := by
      rw [List.all_eq_false]
      exact ⟨'=', hmem, by decide⟩
    rw [hall]
    rfl

/-- The piece of a segment binds what the segment binds, under the same name. -/
theorem addPiece_piece (line : Int) (index : Nat) (p : Params) (cs : List Char) :
    p.addPiece line index (piece cs) = bind line index p cs := by
  unfold Params.addPiece bind piece
  cases equals? cs with
  | none => rfl
  | some i =>
    show (match Literal.read? line _ with
      | some value => p.insert (Text.trimmed (String.ofList (cs.take i))) value
      | none => p) = _
    unfold Text.trimmed
    rw [String.toList_ofList]

end Segment

/-! ## Splitting -/

/-- **A text without a counting comma is taken as one piece**, behind whatever `pieces` there
    are. -/
theorem foldl_segment {cs : List Char} (h : ∀ i < cs.length, countsAt ',' cs i = false)
    (pieces : Array Piece) :
    cs.foldl Splitter.step ⟨pieces, .empty, .outside⟩ =
      ⟨pieces, Segment.piece cs, Depth.after cs⟩ := by
  -- from the end: the last character goes into the piece of the others
  induction cs using List.reverseRecOn with
  | nil => rfl
  | append_singleton cs c ih =>
    have hfront : ∀ i < cs.length, countsAt ',' cs i = false := by
      intro i hi
      rw [← countsAt_snoc_of_lt (d := c) hi]
      exact h i (by rw [List.length_append]; omega)
    have hlast : ((Depth.after cs).isOutside && c == ',') = false := by
      rw [← countsAt_snoc_length]
      exact h cs.length (by rw [List.length_append]; simp)
    rw [List.foldl_append, ih hfront, List.foldl_cons, List.foldl_nil, Segment.piece_snoc,
      Depth.after_snoc]
    unfold Splitter.step
    rw [if_neg (by rw [hlast]; decide)]

/-- Outside of a string there is no backslash to remember, so the depth there is the brackets
    alone. -/
theorem Depth.not_escaped_after (cs : List Char) (h : (Depth.after cs).quoted = false) :
    (Depth.after cs).escaped = false := by
  induction cs using List.reverseRecOn with
  | nil => rfl
  | append_singleton cs c ih =>
    rw [Depth.after_snoc] at h ⊢
    generalize Depth.after cs = d at h ih
    obtain ⟨brackets, quoted, escaped⟩ := d
    cases quoted with
    | false =>
      have hescaped : escaped = false := ih rfl
      subst hescaped
      unfold Depth.step
      split
      · rfl
      · split
        · rfl
        · split
          · rfl
          · split <;> rfl
    | true =>
      cases escaped with
      | true => exact nomatch h
      | false =>
        unfold Depth.step at h ⊢
        dsimp only at h ⊢
        by_cases hslash : c = '\\'
        · subst hslash
          exact nomatch h
        · simp [hslash]
          split <;> rfl

/-- A text that ends outside of brackets and strings leaves the depth where it was at the
    beginning. -/
theorem Depth.after_eq_outside {cs : List Char} (h : (Depth.after cs).isOutside = true) :
    Depth.after cs = .outside := by
  unfold Depth.isOutside at h
  rw [Bool.and_eq_true, beq_iff_eq, Bool.not_eq_true'] at h
  have hescaped := Depth.not_escaped_after cs h.2
  generalize Depth.after cs = d at h hescaped
  obtain ⟨brackets, quoted, escaped⟩ := d
  obtain ⟨rfl, rfl⟩ := h
  subst hescaped
  rfl

/-- Behind a segment the depth is what it was before it, so the next one begins as the first. -/
theorem IsSegment.after_eq {cs : List Char} (h : IsSegment cs) : Depth.after cs = .outside :=
  Depth.after_eq_outside h.closed

/-- **Segments with commas between them are split into the segments**; without any there is one piece
    without characters. -/
theorem split_segments {segments : List (List Char)} (h : ∀ cs ∈ segments, IsSegment cs) :
    Piece.split (String.ofList (listed ',' segments)) =
      if segments = [] then [.empty] else segments.map Segment.piece := by
  have htaken : ∀ cs ∈ segments, ∀ pieces,
      (id cs).foldl Splitter.step ⟨pieces, .empty, .outside⟩ =
        ⟨pieces, Segment.piece cs, .outside⟩ := by
    intro cs hcs pieces
    have hsegment := h cs hcs
    rw [id_eq, foldl_segment hsegment.no_comma, hsegment.after_eq]
  have hrow := split_row htaken
  rwa [List.map_id] at hrow

/-- **Each segment binds what it binds alone**, with its position among those that are not blank. -/
theorem read_segments (line : Int) {segments : List (List Char)} (h : ∀ cs ∈ segments, IsSegment cs) :
    Params.read line (String.ofList (listed ',' segments)) = Segment.bindings line segments := by
  have hpieces : (Piece.split (String.ofList (listed ',' segments))).filter (!·.isBlank) =
      (segments.filter (!·.all Text.isBlank)).map Segment.piece := by
    rw [split_segments h]
    split
    · rename_i hnil
      rw [hnil]
      rfl
    · have hblank : (fun p : Piece => !p.isBlank) ∘ Segment.piece =
          fun cs : List Char => !cs.all Text.isBlank := by
        funext cs
        exact congrArg (!·) (Segment.isBlank_piece cs)
      rw [List.filter_map, hblank]
  unfold Params.read Segment.bindings
  dsimp only
  rw [hpieces, List.zipIdx_map, List.foldl_map]
  simp only [Prod.map_fst, Prod.map_snd, id_eq, Segment.addPiece_piece]

/-! ## Literals -/

/-- White space is carried into the current piece at every depth. -/
theorem carries_gap (g : Gap) (k : Nat) : Carries (bracketed k) g.chars (bracketed k) := by
  refine (closed_carries _).chars fun c hc => ?_
  have hblank := g.blank c hc
  have hne : ∀ d : Char, Text.isBlank d = false → c ≠ d := by
    rintro d hd rfl
    rw [hblank] at hd
    exact nomatch hd
  have hchar := carries_char (d := bracketed k) (c := c)
    (.inr ⟨hne ',' (by decide), hne '=' (by decide)⟩)
  have hdepth : (bracketed k).step c = bracketed k := by
    simp [Depth.step, bracketed, hne '"' (by decide), hne '[' (by decide), hne ']' (by decide)]
  rwa [hdepth] at hchar

mutual

/-- **A phrase is carried at every depth**, so none of its commas parts two pieces.  By induction on
    the phrase. -/
theorem Phrase.carries_chars : ∀ (p : Phrase) (k : Nat), Carries (bracketed k) p.chars (bracketed k)
  | .number n, k => (Source.Value.number n).carries_chars k
  | .boolean b, k => (Source.Value.boolean b).carries_chars k
  | .string marks, k => (Source.Value.string marks).carries_chars k
  | .empty gap, k =>
    carries_append (carries_opening k) (carries_append (carries_gap gap (k + 1)) (carries_closing k))
  | .vector gap items, k =>
    carries_append (carries_opening k)
      (carries_append (carries_gap gap (k + 1)) (Items.carries_chars items k))

/-- Some items are carried out of their vector, whose bracket they end with. -/
theorem Items.carries_chars : ∀ (items : Items) (k : Nat),
    Carries (bracketed (k + 1)) items.chars (bracketed k)
  | .last item gap, k =>
    carries_append (Phrase.carries_chars item (k + 1))
      (carries_append (carries_gap gap (k + 1)) (carries_closing k))
  | .more item before after others, k =>
    carries_append (Phrase.carries_chars item (k + 1))
      (carries_append (carries_gap before (k + 1))
        (carries_append (carries_comma k)
          (carries_append (carries_gap after (k + 1)) (Items.carries_chars others k))))

end

/-- The text of a derivation is carried outside of everything, where a list begins. -/
theorem Derivation.carries_chars (d : Derivation) : Carries .outside d.chars .outside :=
  carries_append (carries_gap d.before 0)
    (carries_append (Phrase.carries_chars d.phrase 0) (carries_gap d.after 0))

theorem Splitter.depth_foldl (cs : List Char) (s : Splitter) :
    (cs.foldl Splitter.step s).depth = cs.foldl Depth.step s.depth := by
  induction cs generalizing s with
  | nil => rfl
  | cons c cs ih =>
    rw [List.foldl_cons, List.foldl_cons, ih]
    congr 1
    unfold Splitter.step
    split
    · rename_i hcomma
      -- a counting comma stands outside of strings and is no bracket
      rw [Bool.and_eq_true, beq_iff_eq] at hcomma
      obtain ⟨hd, rfl⟩ := hcomma
      unfold Depth.isOutside at hd
      rw [Bool.and_eq_true, Bool.not_eq_true'] at hd
      simp [Depth.step, hd.2]
    · rfl

theorem Splitter.size_le_foldl (cs : List Char) (s : Splitter) :
    s.pieces.size ≤ (cs.foldl Splitter.step s).pieces.size := by
  induction cs generalizing s with
  | nil => exact Nat.le_refl _
  | cons c cs ih =>
    have hstep : s.pieces.size ≤ (s.step c).pieces.size := by
      unfold Splitter.step
      split
      · simp
      · exact Nat.le_refl _
    exact Nat.le_trans hstep (ih _)

/-- **A text that is carried outside of everything is a segment:** no comma in it counts, and all it
    opens is closed. -/
theorem isSegment_of_carries {cs : List Char} (h : Carries .outside cs .outside) : IsSegment cs := by
  have hrun := h #[] .empty
  constructor
  · have hdepth := Splitter.depth_foldl cs ⟨#[], .empty, .outside⟩
    rw [hrun] at hdepth
    unfold Depth.after
    rw [← hdepth]
    rfl
  · intro i hi
    rw [Bool.eq_false_iff]
    intro hcounts
    unfold countsAt at hcounts
    rw [Bool.and_eq_true, beq_iff_eq] at hcounts
    obtain ⟨hcomma, houtside⟩ := hcounts
    obtain ⟨hlt, hget⟩ := List.getElem?_eq_some_iff.mp hcomma
    have hcs : cs = cs.take i ++ ',' :: cs.drop (i + 1) := by
      rw [← hget, ← List.drop_eq_getElem_cons hlt, List.take_append_drop]
    rw [hcs, List.foldl_append, List.foldl_cons] at hrun
    have hdepth := Splitter.depth_foldl (cs.take i) ⟨#[], .empty, .outside⟩
    generalize (cs.take i).foldl Splitter.step ⟨#[], .empty, .outside⟩ = s at hrun hdepth
    -- behind a counting comma there is a piece more
    have hstep : (s.step ',').pieces = s.pieces.push s.current := by
      unfold Splitter.step
      rw [hdepth, if_pos]
      rw [Bool.and_eq_true]
      exact ⟨houtside, rfl⟩
    have hsize := Splitter.size_le_foldl (cs.drop (i + 1)) (s.step ',')
    rw [hrun, hstep, Array.size_push] at hsize
    exact absurd hsize (by simp)

/-- **A literal is a segment**, since it has a derivation.  So any row of literals may be a
    parameter list. -/
theorem isSegment_of_read? {line : Int} {s : String} {l : Literal}
    (h : Literal.read? line s = some l) : IsSegment s.toList := by
  obtain ⟨d, hd⟩ := Source.exists_derivation h
  rw [← hd]
  exact isSegment_of_carries (Derivation.carries_chars d)

/-- **Parameters do not affect each other.**  Every literal is a segment, and of a list of segments
    with commas between them each that is not all white space binds its own name, or that of its
    position, to its own literal. -/
theorem read_binds_segments (line : Int) :
    (∀ (s : String) (l : Literal), Literal.read? line s = some l → IsSegment s.toList) ∧
      ∀ segments : List (List Char), (∀ cs ∈ segments, IsSegment cs) →
        Params.read line (String.ofList (listed ',' segments)) = Segment.bindings line segments := by
  constructor
  · intro s l h
    exact isSegment_of_read? h
  · intro segments h
    exact read_segments line h

/-- A name bound twice, a blank segment, a value that is no literal, and signs inside of strings. -/
def mixedSegments : List (List Char) :=
  ["a=[true,\"x,y\"]".toList, " ".toList, "z=w".toList, "\"=\"".toList, " a =false".toList]

theorem read_binds_segments_mixed :
    Literal.read? 1 "[true,\"x,y\"]" = some (.vector 1 [.boolean 1 true, .string 1 "x,y"]) ∧
      IsSegment "[true,\"x,y\"]".toList ∧ (∀ cs ∈ mixedSegments, IsSegment cs) ∧
      Params.read 1 "a=[true,\"x,y\"], ,z=w,\"=\", a =false" =
        ⟨[("a", .boolean 1 false), ("_p002", .string 1 "=")]⟩ := by
  have hread : Literal.read? 1 "[true,\"x,y\"]" = some (.vector 1 [.boolean 1 true, .string 1 "x,y"]) :=
    rfl
  have hsegments : ∀ cs ∈ mixedSegments, IsSegment cs := by decide
  exact ⟨hread, (read_binds_segments 1).1 _ _ hread, hsegments,
    (read_binds_segments 1).2 mixedSegments hsegments⟩

end SolidExport
