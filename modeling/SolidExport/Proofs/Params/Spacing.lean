/-
  Parameters as they are scanned.

  The scanner drops the white space outside of strings before a parameter list is read.  A list as it
  is written is cut at the commas that count (`Segment.parts`), and reading what is left of the list
  binds, for each part, the name in front of its equals sign, or that of its position, to the literal
  that is left of its value (`read_strip`).

  The signature of a statement is what is left of the statement as it is written.  If it can be read,
  its parameters are those of the list between the first parenthesis that is written and the last one
  (`read_written`), whatever modifiers, white space, comments and body the statement has.
-/
import SolidExport.Proofs.Anatomy.Scan
import SolidExport.Proofs.Anatomy.Written

namespace SolidExport

open Anatomy (Occurrence Writes lineAt)
open Source
open Statement (scan)

/-! ## The ends of what is left -/

/-- What is left of a text from a depth `d` outside of strings begins with no white space. -/
theorem Source.head_stripFrom {d : Depth} (hd : d.quoted = false) (cs : List Char) :
    ∀ c ∈ (stripFrom d cs).head?, Text.isBlank c = false := by
  induction cs generalizing d with
  | nil => exact fun c hc => nomatch hc
  | cons e cs ih =>
    rw [stripFrom]
    by_cases hblank : Text.isBlank e = true
    · rw [kept_blank hd hblank, step_blank_depth hd hblank]
      exact ih hd
    · rw [kept_of_not fun h => hblank h.2]
      intro c hc
      obtain rfl : e = c := Option.some.inj hc
      simpa using hblank

/-- If a text ends outside of strings, what is left of it ends with no white space. -/
theorem Source.getLast_strip {cs : List Char} (h : (Depth.after cs).quoted = false) :
    ∀ c ∈ (strip cs).getLast?, Text.isBlank c = false := by
  induction cs using List.reverseRecOn with
  | nil => exact fun c hc => nomatch hc
  | append_singleton cs e ih =>
    rw [strip_snoc]
    rw [Depth.after_snoc] at h
    by_cases hblank : (Depth.after cs).quoted = false ∧ Text.isBlank e = true
    · rw [kept_blank hblank.1 hblank.2, List.append_nil]
      exact ih hblank.1
    · rw [kept_of_not hblank, List.getLast?_concat]
      intro c hc
      obtain rfl : e = c := Option.some.inj hc
      by_contra he
      have he : Text.isBlank e = true := by simpa using he
      -- white space does not end a string
      have hquote : e ≠ '"' := by
        rintro rfl
        exact absurd he (by decide)
      rw [quoted_step hquote] at h
      exact hblank ⟨h, he⟩

/-- If a text ends outside of strings, there is nothing left to trim. -/
theorem Source.trim_strip {cs : List Char} (h : (Depth.after cs).quoted = false) :
    Text.trim (strip cs) = strip cs := by
  have hstart : (strip cs).dropWhile Text.isBlank = strip cs :=
    (span_append (fun c hc => absurd hc List.not_mem_nil) (head_stripFrom rfl cs)).2
  have hlast : ∀ c ∈ (strip cs).reverse.head?, Text.isBlank c = false := by
    rw [List.head?_reverse]
    exact getLast_strip h
  have hend : (strip cs).reverse.dropWhile Text.isBlank = (strip cs).reverse :=
    (span_append (fun c hc => absurd hc List.not_mem_nil) hlast).2
  unfold Text.trim Text.trimEnd Text.trimStart
  rw [hstart, hend, List.reverse_reverse]

/-! ## Segments -/

namespace Segment

/-- `scannedName index cs` — the name of the parameter `cs` at the position `index` once it has been
    scanned: what is left of the text before its first equals sign that counts or, if `cs` has none,
    the name of the position. -/
def scannedName (index : Nat) (cs : List Char) : String :=
  match equals? cs with
  | some i => String.ofList (strip (cs.take i))
  | none => Params.positionalName index

/-- `writtenValue cs` — the value of the parameter `cs` as it is written: the text behind its first
    equals sign that counts, or all of it. -/
def writtenValue (cs : List Char) : List Char :=
  match equals? cs with
  | some i => cs.drop (i + 1)
  | none => cs

/-- `bindStripped line index p cs` — the bindings `p` with those of the parameter `cs` at the position
    `index`, as they are once it has been scanned on the line `line`.  A value of which no literal is
    left binds nothing, and `p` stays as it is. -/
def bindStripped (line : Int) (index : Nat) (p : Params) (cs : List Char) : Params :=
  match Literal.read? line (String.ofList (strip (writtenValue cs))) with
  | some v => p.insert (scannedName index cs) v
  | none => p

/-- `strippedBindings line segments` — the bindings of the parameters `segments` of a call on `line`
    once they have been scanned.  Those that are all white space are no parameters, so they have no
    position either. -/
def strippedBindings (line : Int) (segments : List (List Char)) : Params :=
  (segments.filter (!·.all Text.isBlank)).zipIdx.foldl
    (fun p (cs, index) => bindStripped line index p cs) .empty

/-- `partsFrom d cs` — the text `cs`, which begins at the depth `d`, cut at each comma that counts.
    There is always a first part, which is what `cs` adds to the part that it begins in. -/
def partsFrom (d : Depth) : List Char → List (List Char)
  | [] => [[]]
  | c :: cs =>
    if d.isOutside && c == ',' then [] :: partsFrom (d.step c) cs
    else (partsFrom (d.step c) cs).modifyHead (c :: ·)

/-- `parts list` — the parts of a parameter list as it is written, between its commas that count. -/
def parts (list : List Char) : List (List Char) := partsFrom .outside list

/-- A comma in brackets and one in a string do not count; brackets that are never closed hide the
    commas behind them. -/
example : parts "a=[1,2], \",\" ,b=[,".toList =
    ["a=[1,2]".toList, " \",\" ".toList, "b=[,".toList] := by decide

/-- `boundTo? line list name` — the literal that `name` is bound to by the parameter list `list` of a
    call on the line `line`, where `list` is the text between the parentheses as it is written.  Of the
    parts with this name of whose value a literal is left, the last one decides: a later binding of a
    name replaces the earlier ones, and a part of which no literal is left binds nothing. -/
def boundTo? (line : Int) (list : List Char) (name : String) : Option Literal :=
  ((parts list).filter (!·.all Text.isBlank)).zipIdx.reverse.findSome? fun (cs, index) =>
    if scannedName index cs = name then
      Literal.read? line (String.ofList (strip (writtenValue cs)))
    else none

end Segment

/-- `p.strip` — the piece `p` as it is once it has been scanned: the name and the value are without
    the white space outside of strings. -/
def Piece.strip (p : Piece) : Piece :=
  ⟨p.name.map fun name => String.ofList (Source.strip name.toList),
    String.ofList (Source.strip p.value.toList)⟩

namespace Segment

/-- The value of a piece ends at the depth of its text: a name is cut off only outside, where it has
    left no trace. -/
theorem after_value_piece (cs : List Char) :
    Depth.after (piece cs).value.toList = Depth.after cs := by
  induction cs using List.reverseRecOn with
  | nil => rfl
  | append_singleton cs c ih =>
    rw [piece_snoc]
    unfold Piece.push
    split
    · rename_i hcut
      -- the value begins anew, where the depth is that of its beginning
      simp only [Bool.and_eq_true, beq_iff_eq] at hcut
      obtain ⟨⟨houtside, rfl⟩, -⟩ := hcut
      rw [Depth.after_snoc, Depth.after_eq_outside houtside]
      rfl
    · show Depth.after ((piece cs).value.push c).toList = _
      rw [String.toList_push, Depth.after_snoc, Depth.after_snoc, ih]

/-- **What is left of a text is the piece that is left:** stripping may come before or behind the
    cut at the equals sign. -/
theorem piece_strip (cs : List Char) : piece (strip cs) = (piece cs).strip := by
  induction cs using List.reverseRecOn with
  | nil => rfl
  | append_singleton cs c ih =>
    have hvalue : (Depth.after (piece cs).value.toList).quoted = (Depth.after cs).quoted := by
      rw [after_value_piece]
    rw [strip_snoc, piece_snoc]
    by_cases hblank : (Depth.after cs).quoted = false ∧ Text.isBlank c = true
    · rw [kept_blank hblank.1 hblank.2, List.append_nil, ih]
      have hequals : c ≠ '=' := by
        rintro rfl
        exact absurd hblank.2 (by decide)
      unfold Piece.push
      rw [if_neg (by simp [hequals])]
      unfold Piece.strip
      dsimp only
      rw [String.toList_push, strip_snoc, kept_blank (hvalue.trans hblank.1) hblank.2, List.append_nil]
    · rw [kept_of_not hblank, piece_snoc, after_strip, ih]
      unfold Piece.push Piece.strip
      by_cases hcut : ((Depth.after cs).isOutside && c == '=' && (piece cs).name.isNone) = true
      · rw [if_pos hcut, if_pos (by simpa using hcut)]
        rfl
      · rw [if_neg hcut, if_neg (by simpa using hcut)]
        dsimp only
        rw [String.toList_push, strip_snoc, kept_of_not (by rwa [hvalue]), push_ofList]

/-- The piece of what is left of a segment binds what the segment binds as it is scanned. -/
theorem addPiece_strip (line : Int) (index : Nat) (p : Params) (cs : List Char) :
    p.addPiece line index (piece (strip cs)) = bindStripped line index p cs := by
  rw [piece_strip]
  unfold Params.addPiece bindStripped scannedName writtenValue piece Piece.strip
  cases hequals : equals? cs with
  | none =>
    cases hread : Literal.read? line (String.ofList (strip cs)) with
    | none => simp only [String.toList_ofList, hread]
    | some v => simp only [Option.map_none, String.toList_ofList, hread]
  | some i =>
    have hcounts := List.find?_some hequals
    unfold countsAt at hcounts
    rw [Bool.and_eq_true] at hcounts
    have hquoted : (Depth.after (cs.take i)).quoted = false := by
      rw [Depth.after_eq_outside hcounts.2]
      rfl
    cases hread : Literal.read? line (String.ofList (strip (cs.drop (i + 1)))) with
    | none => simp only [String.toList_ofList, hread]
    | some v =>
      simp only [Option.map_some, String.toList_ofList, hread, Text.trimmed, trim_strip hquoted]

/-- **The run lemma.**  The splitter is in the middle of a part, of which it has taken what is left of
    `done`.  Taking what is left of `cs` it ends with the parts of `cs`, the first of them behind
    `done`. -/
theorem foldl_stripFrom (pieces : Array Piece) (done cs : List Char) :
    let s := (stripFrom (Depth.after done) cs).foldl Splitter.step
      ⟨pieces, piece (strip done), Depth.after done⟩
    (s.pieces.push s.current).toList = pieces.toList ++
      ((partsFrom (Depth.after done) cs).modifyHead (done ++ ·)).map fun part => piece (strip part) := by
  induction cs generalizing pieces done with
  | nil =>
    dsimp only
    rw [partsFrom, List.modifyHead_cons, List.append_nil]
    exact Array.toList_push
  | cons c cs ih =>
    rw [stripFrom, partsFrom, ← Depth.after_snoc]
    by_cases hcomma : ((Depth.after done).isOutside && c == ',') = true
    · -- the part is complete, and the next one begins outside of everything
      rw [if_pos hcomma]
      rw [Bool.and_eq_true, beq_iff_eq] at hcomma
      obtain ⟨houtside, rfl⟩ := hcomma
      have hdone : Depth.after done = .outside := Depth.after_eq_outside houtside
      have hnext : Depth.after (done ++ [',']) = Depth.after [] := by
        rw [Depth.after_snoc, hdone]
        rfl
      have hstep : Splitter.step ⟨pieces, piece (strip done), Depth.after done⟩ ',' =
          ⟨pieces.push (piece (strip done)), piece (strip []), Depth.after []⟩ := by
        rw [hdone]
        rfl
      rw [kept_of_not fun h => absurd h.2 (by decide), hnext]
      show (let s := (stripFrom (Depth.after []) cs).foldl Splitter.step (Splitter.step _ ',')
        (s.pieces.push s.current).toList) = _
      rw [hstep, List.modifyHead_cons, List.append_nil, List.map_cons]
      refine (ih (pieces.push (piece (strip done))) []).trans ?_
      have hfirst : ∀ ps : List (List Char), ps.modifyHead ([] ++ ·) = ps := by
        intro ps
        cases ps <;> rfl
      rw [hfirst, Array.toList_push, List.append_assoc]
      rfl
    · -- the character goes into the part, and into the piece if it is kept
      rw [if_neg hcomma]
      have hparts : ∀ ps : List (List Char), (ps.modifyHead (c :: ·)).modifyHead (done ++ ·) =
          ps.modifyHead (done ++ [c] ++ ·) := by
        intro ps
        cases ps with
        | nil => rfl
        | cons part ps => simp
      rw [hparts, ← ih pieces (done ++ [c])]
      by_cases hblank : (Depth.after done).quoted = false ∧ Text.isBlank c = true
      · have hdepth : Depth.after (done ++ [c]) = Depth.after done := by
          rw [Depth.after_snoc, step_blank_depth hblank.1 hblank.2]
        rw [kept_blank hblank.1 hblank.2, strip_snoc, kept_blank hblank.1 hblank.2, hdepth,
          List.append_nil]
        rfl
      · have hstep : Splitter.step ⟨pieces, piece (strip done), Depth.after done⟩ c =
            ⟨pieces, piece (strip (done ++ [c])), Depth.after (done ++ [c])⟩ := by
          unfold Splitter.step
          rw [if_neg hcomma, strip_snoc, kept_of_not hblank, piece_snoc, after_strip,
            Depth.after_snoc]
        rw [kept_of_not hblank, ← hstep]
        rfl

/-- **What is left of a list is split into what is left of its parts**, since white space is no
    counting comma. -/
theorem split_strip (list : List Char) :
    Piece.split (String.ofList (strip list)) = (parts list).map fun part => piece (strip part) := by
  have hrun := foldl_stripFrom #[] [] list
  have hfirst : (partsFrom .outside list).modifyHead ([] ++ ·) = parts list := by
    unfold parts
    cases partsFrom .outside list <;> rfl
  unfold Piece.split
  rw [String.toList_ofList]
  refine hrun.trans ?_
  show [] ++ ((partsFrom .outside list).modifyHead ([] ++ ·)).map _ = _
  rw [hfirst]
  rfl

end Segment

/-- What is left of a text is blank exactly if the text is: white space in a string stands between
    quotes. -/
theorem Source.all_blank_strip (cs : List Char) :
    (strip cs).all Text.isBlank = cs.all Text.isBlank := by
  induction cs using List.reverseRecOn with
  | nil => rfl
  | append_singleton cs c ih =>
    rw [strip_snoc, List.all_append, ih, List.all_append]
    by_cases hblank : (Depth.after cs).quoted = false ∧ Text.isBlank c = true
    · rw [kept_blank hblank.1 hblank.2]
      simp [hblank.2]
    · rw [kept_of_not hblank]

/-- **Reading what is left of a list binds its parts as they are scanned**, position by position. -/
theorem read_strip (line : Int) (list : List Char) :
    Params.read line (String.ofList (strip list)) =
      Segment.strippedBindings line (Segment.parts list) := by
  have hblank : (fun p : Piece => !p.isBlank) ∘ (fun part => Segment.piece (strip part)) =
      fun cs : List Char => !cs.all Text.isBlank := by
    funext cs
    show (!(Segment.piece (strip cs)).isBlank) = _
    rw [Segment.isBlank_piece, all_blank_strip]
  unfold Params.read Segment.strippedBindings
  dsimp only
  rw [Segment.split_strip, List.filter_map, hblank, List.zipIdx_map, List.foldl_map]
  simp only [Prod.map_fst, Prod.map_snd, id_eq, Segment.addPiece_strip]

/-- The parameter `cs` binds its own name, if a literal is left of its value, and no other. -/
theorem Segment.get?_bindStripped (line : Int) (index : Nat) (p : Params) (cs : List Char)
    (name : String) :
    (bindStripped line index p cs).get? name =
      (if scannedName index cs = name then
        Literal.read? line (String.ofList (strip (writtenValue cs)))
      else none).or (p.get? name) := by
  unfold bindStripped
  cases Literal.read? line (String.ofList (strip (writtenValue cs))) with
  | none =>
    rw [ite_self]
    rfl
  | some v =>
    by_cases hname : scannedName index cs = name
    · rw [if_pos hname, hname]
      exact Named.lookup_set_self name v p.bindings
    · rw [if_neg hname]
      exact Named.lookup_set_of_ne (Ne.symm hname) v p.bindings

/-- **A name is bound to the last literal that is left for it.**  Parts that are no literal when
    they are stripped bind nothing. -/
theorem Segment.get?_strippedBindings (line : Int) (list : List Char) (name : String) :
    (strippedBindings line (parts list)).get? name = boundTo? line list name := by
  unfold strippedBindings boundTo?
  -- from the end: the last part decides if it binds the name, and has no say in it if not
  induction ((parts list).filter (!·.all Text.isBlank)).zipIdx using List.reverseRecOn with
  | nil => rfl
  | append_singleton bound last ih =>
    obtain ⟨cs, index⟩ := last
    rw [List.foldl_append, List.reverse_append, List.findSome?_append, ← ih,
      List.reverse_singleton, List.findSome?_singleton, ← get?_bindStripped]
    rfl

/-! ## Statements -/

/-- Stripping takes characters away and adds none. -/
theorem Source.stripFrom_sublist (d : Depth) (cs : List Char) : (stripFrom d cs).Sublist cs := by
  induction cs generalizing d with
  | nil => exact List.Sublist.refl []
  | cons c cs ih =>
    rw [stripFrom]
    unfold kept
    split
    · exact (ih _).cons c
    · exact (ih _).cons_cons c

/-- Stripping keeps every character that is no white space, at whatever depth it begins. -/
theorem Source.mem_stripFrom {c : Char} (hc : Text.isBlank c = false) (d : Depth) {cs : List Char} :
    c ∈ stripFrom d cs ↔ c ∈ cs := by
  refine ⟨fun h => (stripFrom_sublist d cs).subset h, fun h => ?_⟩
  induction cs generalizing d with
  | nil => exact absurd h List.not_mem_nil
  | cons e cs ih =>
    rw [stripFrom, List.mem_append]
    rcases List.mem_cons.mp h with rfl | h
    · left
      rw [kept_of_not fun hblank => Bool.false_ne_true (hc.symm.trans hblank.2)]
      exact List.mem_singleton_self c
    · exact Or.inr (ih _ h)

/-- A parenthesis is kept at any depth, and what stands before it and behind is stripped apart. -/
theorem Source.stripFrom_cons_solid {c : Char} (hc : Text.isBlank c = false) (d : Depth)
    (front back : List Char) :
    stripFrom d (front ++ c :: back) =
      stripFrom d front ++ c :: stripFrom ((front.foldl Depth.step d).step c) back := by
  rw [stripFrom_append, stripFrom, kept_of_not fun h => Bool.false_ne_true (hc.symm.trans h.2)]
  rfl

/-- A text without quotes and brackets leaves the depth as it was. -/
theorem Depth.after_of_plain {cs : List Char} (h : ∀ c ∈ cs, c ≠ '"' ∧ c ≠ '[' ∧ c ≠ ']') :
    Depth.after cs = .outside := by
  induction cs using List.reverseRecOn with
  | nil => rfl
  | append_singleton cs c ih =>
    obtain ⟨h1, h2, h3⟩ := h c (List.mem_append_right cs (List.mem_singleton_self c))
    rw [Depth.after_snoc, ih fun e he => h e (List.mem_append_left [c] he)]
    simp [Depth.step, outside, h1, h2, h3]

/-- Trimming keeps every character that is no white space. -/
theorem Source.mem_trim {c : Char} {cs : List Char} (hc : Text.isBlank c = false) (h : c ∈ cs) :
    c ∈ Text.trim cs := by
  have hdrop : ∀ ds : List Char, c ∈ ds → c ∈ ds.dropWhile Text.isBlank := by
    intro ds hds
    rw [← List.takeWhile_append_dropWhile (p := Text.isBlank) (l := ds)] at hds
    rcases List.mem_append.mp hds with hfront | hback
    · exact absurd ((List.mem_takeWhile_imp hfront).symm.trans hc) (by decide)
    · exact hback
  exact List.mem_reverse.mpr (hdrop _ (List.mem_reverse.mpr (hdrop _ h)))

/-- What is trimmed to a tag has no quotes and no brackets, so stripping does to it what it does
    outside. -/
theorem Source.plain_of_isTag {front : List Char}
    (h : Signature.isTag (String.ofList (Text.trim front)) = true) :
    ∀ c ∈ front, c ≠ '"' ∧ c ≠ '[' ∧ c ≠ ']' := by
  have htag : ∀ c ∈ Text.trim front, Signature.continuesTag c = true := by
    unfold Signature.isTag at h
    rw [String.toList_ofList] at h
    intro c hc
    cases htrim : Text.trim front with
    | nil =>
      rw [htrim] at hc
      exact absurd hc List.not_mem_nil
    | cons e es =>
      rw [htrim] at h hc
      obtain ⟨hstart, hrest⟩ := Bool.and_eq_true_iff.mp h
      rcases List.mem_cons.mp hc with rfl | hc
      · unfold Signature.continuesTag
        rw [hstart]
        rfl
      · exact List.all_eq_true.mp hrest c hc
  intro c hc
  refine ⟨?_, ?_, ?_⟩
  · rintro rfl
    exact absurd (htag _ (mem_trim (by decide) hc)) (by decide)
  · rintro rfl
    exact absurd (htag _ (mem_trim (by decide) hc)) (by decide)
  · rintro rfl
    exact absurd (htag _ (mem_trim (by decide) hc)) (by decide)

/-- `Encloses written list` — the statement `written` has the parameter list `list` between its first
    parenthesis and its last closing one, and only white space behind that. -/
def Source.Encloses (written list : List Char) : Prop :=
  ∃ front back, written = front ++ '(' :: (list ++ ')' :: back) ∧ '(' ∉ front ∧
    ∀ c ∈ back, Text.isBlank c = true

/-- The list of what is left of a statement is what is left of its list, if what stands in front of the
    list leaves everything as it was. -/
theorem Source.exists_list_of_strip {more list behind : List Char}
    (h : strip more = list ++ ')' :: behind) (hbehind : ∀ c ∈ behind, Text.isBlank c = true) :
    ∃ list' back, more = list' ++ ')' :: back ∧ strip list' = list ∧
      ∀ c ∈ back, Text.isBlank c = true := by
  have hlast : ')' ∉ behind := fun hmem => absurd (hbehind _ hmem) (by decide)
  have hmem : ')' ∈ more.reverse := by
    rw [List.mem_reverse, ← mem_stripFrom (by decide) .outside]
    change ')' ∈ strip more
    rw [h]
    simp
  -- the last parenthesis that is written is the last one that is left
  obtain ⟨tail, head, hreverse, htail⟩ := List.eq_append_cons_of_mem hmem
  have hmore : more = head.reverse ++ ')' :: tail.reverse := by
    rw [← List.reverse_reverse more, hreverse]
    simp
  have hstrip := stripFrom_cons_solid (c := ')') (by decide) .outside head.reverse tail.reverse
  generalize (head.reverse.foldl Depth.step Depth.outside).step ')' = d at hstrip
  have hnot : ')' ∉ stripFrom d tail.reverse :=
    fun hin => htail (List.mem_reverse.mp ((stripFrom_sublist d _).subset hin))
  have hsplit := splitAtLast?_append (strip head.reverse) hnot
  rw [← show strip more = strip head.reverse ++ ')' :: stripFrom d tail.reverse from hmore ▸ hstrip,
    h, splitAtLast?_append list hlast] at hsplit
  obtain ⟨hlist, hback⟩ := Prod.mk.inj (Option.some.inj hsplit)
  refine ⟨head.reverse, tail.reverse, hmore, hlist.symm, fun c hc => ?_⟩
  by_contra hblank
  have hsolid : Text.isBlank c = false := by simpa using hblank
  have hleft : c ∈ behind := hback ▸ (mem_stripFrom hsolid d).mpr hc
  exact hblank (hbehind c hleft)

/-- **The parameters of a statement are those of the list that is written.**  Of the statement
    `written`, stripped and without the modifiers in front, the signature `x` has been read.  Then the
    statement has no parenthesis, and `x` no parameters, or `x` has those that are left of the list. -/
theorem read_written {line : Int} {written : List Char} {x : Signature}
    (h : Signature.read line (String.ofList ((strip written).dropWhile Scanner.isModifier)) = .ok x) :
    ('(' ∉ written ∧ x.params = .empty) ∨
      ∃ list, Encloses written list ∧ x.params = Params.read line (String.ofList (strip list)) := by
  have hparen : '(' ∈ written ↔ '(' ∈ strip written := (mem_stripFrom (by decide) .outside).symm
  have hwhole := List.takeWhile_append_dropWhile (p := Scanner.isModifier) (l := strip written)
  have hmodifiers : ∀ c ∈ (strip written).takeWhile Scanner.isModifier, Scanner.isModifier c = true :=
    fun c hc => List.mem_takeWhile_imp hc
  generalize (strip written).takeWhile Scanner.isModifier = modifiers at hwhole hmodifiers
  have hopen : '(' ∉ modifiers := fun hmem => absurd (hmodifiers _ hmem) (by decide)
  obtain ⟨htag, hcases⟩ := read_ok h
  unfold Signature.tagOf at htag
  rw [String.toList_ofList] at htag hcases
  rcases hcases with ⟨hnone, hparams⟩ | ⟨front, list, behind, heq, hfront, hblank, hparams⟩
  · refine Or.inl ⟨fun hmem => ?_, hparams⟩
    rw [hparen, ← hwhole] at hmem
    rcases List.mem_append.mp hmem with hmem | hmem
    · exact hopen hmem
    · exact hnone hmem
  · right
    have hsolid : ∀ c ∈ front, (c != '(') = true :=
      fun c hc => bne_iff_ne.mpr fun heq => hfront (heq ▸ hc)
    rw [heq, (span_append hsolid fun c hc => by cases hc; decide).1] at htag
    rw [heq, ← List.append_assoc] at hwhole
    have hmem : '(' ∈ written := by
      rw [hparen, ← hwhole]
      simp
    -- the first parenthesis that is written is the first one that is left
    obtain ⟨head, more, rfl, hhead⟩ := List.eq_append_cons_of_mem hmem
    have hstrip := stripFrom_cons_solid (c := '(') (by decide) .outside head more
    change strip (head ++ '(' :: more) = strip head ++ '(' :: _ at hstrip
    rw [hstrip] at hwhole
    have hleft : ∀ c ∈ modifiers ++ front, (c != '(') = true := by
      intro c hc
      rcases List.mem_append.mp hc with hc | hc
      · exact bne_iff_ne.mpr fun heq => hopen (heq ▸ hc)
      · exact hsolid c hc
    have hright : ∀ c ∈ strip head, (c != '(') = true :=
      fun c hc => bne_iff_ne.mpr fun heq => hhead (heq ▸ (stripFrom_sublist .outside head).subset hc)
    obtain ⟨hheads, hrests⟩ := span_unique hleft hright (fun c hc => by cases hc; decide)
      (fun c hc => by cases hc; decide) hwhole
    -- the tag and the modifiers have neither quotes nor brackets, so the list begins outside
    have hplain : ∀ c ∈ head, c ≠ '"' ∧ c ≠ '[' ∧ c ≠ ']' := by
      have hkept : ∀ c ∈ modifiers ++ front, c ≠ '"' ∧ c ≠ '[' ∧ c ≠ ']' := by
        intro c hc
        rcases List.mem_append.mp hc with hc | hc
        · have hmodifier := hmodifiers c hc
          refine ⟨?_, ?_, ?_⟩ <;> rintro rfl <;> exact absurd hmodifier (by decide)
        · exact plain_of_isTag htag c hc
      intro c hc
      have hin : ∀ {e : Char}, Text.isBlank e = false → c = e → e ∈ modifiers ++ front := by
        rintro e he rfl
        rw [hheads]
        exact (mem_stripFrom he .outside).mpr hc
      exact ⟨fun heq => (hkept _ (hin (by decide) heq)).1 rfl,
        fun heq => (hkept _ (hin (by decide) heq)).2.1 rfl,
        fun heq => (hkept _ (hin (by decide) heq)).2.2 rfl⟩
    have hdepth : (head.foldl Depth.step Depth.outside).step '(' = .outside := by
      have hafter : head.foldl Depth.step Depth.outside = .outside := Depth.after_of_plain hplain
      rw [hafter]
      rfl
    rw [hdepth] at hrests
    obtain ⟨list', back, rfl, hlist, hback⟩ :=
      exists_list_of_strip (List.cons.inj hrests).2.symm hblank
    exact ⟨list', ⟨head, back, rfl, hhead, hback⟩, by rw [hlist, hparams]⟩

/-- **White space changes what a literal means only where it splits a word.**  A text `cs` with a split
    word is no literal; any other is the literal that is left of it without the white space outside of
    strings, or no literal as well.

    So it is with every statement that a text gives, be it with or without a body, modifiers and
    parentheses.  The text has an anatomy, and the statements are those that the anatomy keeps.  Each
    stands somewhere in the text as `written`, comments aside, and its signature is `written` without
    the white space outside of strings and the modifiers in front.  Whenever that signature can be
    read, as `x`, nothing is bound if no parenthesis is written, and otherwise each name is bound to
    the last parameter with this name, of those written between the parentheses, of whose value a
    literal is left. -/
theorem spacing_matters_in_split_words_only :
    (∀ (cs : List Char) (line : Int),
      (SplitsWord cs → Literal.read? line (String.ofList cs) = none) ∧
      (¬ SplitsWord cs → Literal.read? line (String.ofList (strip cs)) =
        Literal.read? line (String.ofList cs))) ∧
    ∀ (text : String) (ss : List Statement), (scan text).result = .ok ss →
      Nonempty (Anatomy text.toList) ∧ ∀ a : Anatomy text.toList,
        ss = a.kept.map (Occurrence.statement (lineAt text.toList)) ∧
        ∀ o ∈ a.kept, ∃ written, a.Writes o.phrase written ∧
          o.phrase.signature = String.ofList ((strip written).dropWhile Scanner.isModifier) ∧
          ∀ (line : Int) (x : Signature), Signature.read line o.phrase.signature = .ok x →
            ('(' ∉ written ∧ x.params = .empty) ∨
            ∃ list, Encloses written list ∧
              ∀ name, x.params.get? name = Segment.boundTo? line list name := by
  constructor
  · intro cs line
    exact ⟨fun h => read?_of_splitsWord h line, fun h => read?_strip h line⟩
  · intro text ss hscan
    refine ⟨Statement.exists_anatomy hscan, fun a => ⟨?_, fun o ho => ?_⟩⟩
    · rw [(Statement.scan_of_anatomy a).1] at hscan
      exact (Except.ok.inj hscan).symm
    · obtain ⟨written, hwrites⟩ := a.exists_writes ho
      have hsignature : o.phrase.signature =
          String.ofList ((strip written).dropWhile Scanner.isModifier) := by
        rw [hwrites.strip_eq]
        rfl
      refine ⟨written, hwrites, hsignature, fun line x hread => ?_⟩
      rw [hsignature] at hread
      rcases read_written hread with hnone | ⟨list, hlist, hparams⟩
      · exact Or.inl hnone
      · refine Or.inr ⟨list, hlist, fun name => ?_⟩
        rw [hparams, read_strip, Segment.get?_strippedBindings]

/-- A modifier, white space around the parentheses, a split word, a comment with a comma in it, white
    space in a string, and a body with a statement that has no parentheses. -/
def spacedText : String := "#cube (\tsize = tr ue, /* , */ a=\" b \"\n) \x7b c ; \x7d"

/-- The cube is scanned to two parameters: the split word is joined, and the string keeps its white
    space. -/
theorem spacing_matters_in_split_words_only_spaced :
    SplitsWord "tr ue".toList ∧ Literal.read? 1 "tr ue" = none ∧
      ¬ SplitsWord " [true ,false]".toList ∧
      Literal.read? 1 (String.ofList (strip " [true ,false]".toList)) =
        some (.vector 1 [.boolean 1 true, .boolean 1 false]) ∧
      (scan spacedText).result = .ok [⟨"cube(size=true,a=\" b \")", 0, 1⟩, ⟨"c", 1, 2⟩] ∧
      ∃ (a : Anatomy spacedText.toList) (written list : List Char), ∃ o ∈ a.kept,
        a.Writes o.phrase written ∧ Encloses written list ∧
        Segment.boundTo? 1 list "size" = some (.boolean 1 true) ∧
        Segment.boundTo? 1 list "a" = some (.string 1 " b ") := by
  have hsplits : SplitsWord "tr ue".toList :=
    ⟨['t'], 'r', [' '], 'u', ['e'], rfl, rfl, by decide,
      List.forall_mem_singleton.mpr rfl, rfl, rfl⟩
  have hread : Literal.read? 1 " [true ,false]" =
      some (.vector 1 [.boolean 1 true, .boolean 1 false]) := rfl
  -- a literal has no split word
  have hwhole : ¬ SplitsWord " [true ,false]".toList := by
    intro h
    have hnone := (spacing_matters_in_split_words_only.1 _ 1).1 h
    exact nomatch hnone.symm.trans hread
  have hscan : (scan spacedText).result =
      .ok [⟨"cube(size=true,a=\" b \")", 0, 1⟩, ⟨"c", 1, 2⟩] := by rfl
  obtain ⟨⟨a⟩, hkept⟩ := spacing_matters_in_split_words_only.2 _ _ hscan
  obtain ⟨hstatements, hwritten⟩ := hkept a
  -- the first statement that is kept is the cube
  obtain ⟨o, others, ho⟩ : ∃ o others, a.kept = o :: others := by
    cases hlist : a.kept with
    | nil => rw [hlist] at hstatements; exact nomatch hstatements
    | cons o others => exact ⟨o, others, rfl⟩
  rw [ho] at hstatements
  have hsignature : o.phrase.signature = "cube(size=true,a=\" b \")" :=
    (congrArg Statement.signature (List.cons.inj hstatements).1).symm
  have hmem : o ∈ a.kept := ho ▸ List.mem_cons_self
  obtain ⟨written, hwrites, -, hbound⟩ := hwritten o hmem
  have hcube : Signature.read 1 o.phrase.signature =
      .ok ⟨"cube", ⟨[("size", .boolean 1 true), ("a", .string 1 " b ")]⟩⟩ := by
    rw [hsignature]
    rfl
  refine ⟨hsplits, (spacing_matters_in_split_words_only.1 _ 1).1 hsplits, hwhole,
    ((spacing_matters_in_split_words_only.1 _ 1).2 hwhole).trans hread, hscan, a, written, ?_⟩
  rcases hbound 1 _ hcube with ⟨-, hempty⟩ | ⟨list, hlist, hnames⟩
  · exact nomatch congrArg Params.bindings hempty
  · exact ⟨list, o, hmem, hwrites, hlist, (hnames "size").symm, (hnames "a").symm⟩

/-- Stripped of its white space, a text can be a literal that it is not as it is written: `tr ue` is
    none, and `true` is one. -/
theorem strip_joins_words :
    Literal.read? 1 "tr ue" = none ∧
      Literal.read? 1 (String.ofList (strip "tr ue".toList)) = some (.boolean 1 true) :=
  ⟨rfl, rfl⟩

end SolidExport
