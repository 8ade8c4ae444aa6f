/-
  Reading signatures back.

  A text is carried into a piece when none of its commas and equals signs counts (`Carries`); such
  texts follow each other.  A value is carried at every depth, so a parameter list is split at the
  commas between the parameters and nowhere else, and each piece at the sign behind its name.

  `Signature.read` then gives the tag and the bindings (`read_signature`).
-/
import Mathlib.Data.List.Induction
import Mathlib.Data.List.TakeWhile
import SolidExport.Proofs.Source.Value

namespace SolidExport.Source

/-! ## Carrying -/

/-- `Carries d cs d'` — the splitter takes the text `cs` from the depth `d` to `d'` and puts it into
    the current piece as a whole.  No comma in it parts two pieces, and no name ends in it. -/
def Carries (d : Depth) (cs : List Char) (d' : Depth) : Prop :=
  ∀ pieces p, cs.foldl Splitter.step ⟨pieces, p, d⟩ =
    ⟨pieces, { p with value := p.value ++ String.ofList cs }, d'⟩

/-- `bracketed k` — the depth of `k` open brackets, outside of strings. -/
def bracketed (k : Nat) : Depth := ⟨k, false, false⟩

/-- `quoted k` — the depth of `k` open brackets, inside a string. -/
def quoted (k : Nat) : Depth := ⟨k, true, false⟩

theorem carries_append {d d' d'' : Depth} {cs ds : List Char} (hc : Carries d cs d')
    (hd : Carries d' ds d'') : Carries d (cs ++ ds) d'' := by
  intro pieces p
  rw [List.foldl_append, hc, hd, String.append_assoc, ← String.ofList_append]

/-- Texts that are carried and leave a depth as it is may follow each other. -/
theorem closed_carries (d : Depth) : Closed fun cs => Carries d cs d where
  nil := by
    intro pieces p
    simp
  append := carries_append

/-- A character is carried into the current piece unless it counts as a comma or an equals sign. -/
theorem carries_char {d : Depth} {c : Char} (h : d.isOutside = false ∨ c ≠ ',' ∧ c ≠ '=') :
    Carries d [c] (d.step c) := by
  have hcomma : ¬ (d.isOutside && c == ',') = true := by
    rcases h with h | ⟨h, _⟩ <;> simp [h]
  have hequals : ∀ p : Piece, ¬ (d.isOutside && c == '=' && p.name.isNone) = true := by
    intro p
    rcases h with h | ⟨_, h⟩ <;> simp [h]
  intro pieces p
  show Splitter.step _ c = _
  unfold Splitter.step Piece.push
  rw [if_neg hcomma, if_neg (hequals p), String.push_eq_append]
  rfl

theorem carries_word {cs : List Char} (hcs : IsWord cs) (k : Nat) :
    Carries (bracketed k) cs (bracketed k) := by
  refine (closed_carries _).chars fun c hc => ?_
  have h := hcs c hc
  have hdepth : (bracketed k).step c = bracketed k := by
    have h1 := ne_of_isOrdinary h (d := '"') (by decide)
    have h2 := ne_of_isOrdinary h (d := '[') (by decide)
    have h3 := ne_of_isOrdinary h (d := ']') (by decide)
    simp [Depth.step, bracketed, h1, h2, h3]
  have hchar := carries_char (d := bracketed k)
    (.inr ⟨ne_of_isOrdinary h (d := ',') (by decide), ne_of_isOrdinary h (d := '=') (by decide)⟩)
  rwa [hdepth] at hchar

/-- Inside a string nothing counts, and no mark ends it. -/
theorem carries_marks (marks : List Mark) (k : Nat) :
    Carries (quoted k) (marks.flatMap Mark.chars) (quoted k) := by
  refine (closed_carries _).flatMap fun m _ => ?_
  have hinside : ∀ escaped, (Depth.mk k true escaped).isOutside = false := by
    intro escaped
    simp [Depth.isOutside]
  cases m with
  | bare c free =>
    have hdepth : (quoted k).step c = quoted k := by simp [Depth.step, quoted, free.1, free.2]
    have hchar := carries_char (d := quoted k) (c := c) (.inl (hinside false))
    rwa [hdepth] at hchar
  | escaped c =>
    exact carries_append (carries_char (c := '\\') (.inl (hinside false)))
      (carries_char (c := c) (.inl (hinside true)))

theorem carries_opening (k : Nat) : Carries (bracketed k) ['['] (bracketed (k + 1)) :=
  carries_char (.inr (by decide))

theorem carries_closing (k : Nat) : Carries (bracketed (k + 1)) [']'] (bracketed k) := by
  have hchar := carries_char (d := bracketed (k + 1)) (c := ']') (.inr (by decide))
  have hdepth : (bracketed (k + 1)).step ']' = bracketed k := by
    simp [Depth.step, bracketed]
  rwa [hdepth] at hchar

/-- Inside brackets the commas do not count. -/
theorem carries_comma (k : Nat) : Carries (bracketed (k + 1)) [','] (bracketed (k + 1)) := by
  refine carries_char (.inl ?_)
  have hpos : ((k + 1 : Nat) : Int) ≠ 0 := by omega
  simpa [Depth.isOutside, bracketed] using hpos

/-- **A value is carried at every depth**, so a parameter is one piece.  By induction on the
    value. -/
theorem Value.carries_chars (v : Value) (k : Nat) :
    Carries (bracketed k) v.chars (bracketed k) := by
  induction v using Value.induction generalizing k with
  | number n => exact carries_word n.isWord_chars k
  | boolean b => exact carries_word (isWord_booleanText b) k
  | string marks =>
    have hquote : Carries (bracketed k) ['"'] (quoted k) := carries_char (.inr (by decide))
    have hunquote : Carries (quoted k) ['"'] (bracketed k) :=
      carries_char (.inl (by simp [Depth.isOutside, quoted]))
    exact carries_append hquote (carries_append (carries_marks marks k) hunquote)
  | vector items ih =>
    have hitems : Carries (bracketed (k + 1)) (listed ',' (items.map Value.chars))
        (bracketed (k + 1)) := by
      refine (closed_carries _).listed (carries_comma k) fun t ht => ?_
      obtain ⟨v, hv, rfl⟩ := List.mem_map.mp ht
      exact ih v hv (k + 1)
    rw [Value.chars, Value.allChars_eq]
    exact carries_append (carries_opening k) (carries_append hitems (carries_closing k))

/-! ## Splitting -/

/-- `p.piece` — the piece that the parameter `p` is written as: its name, if it has one, and its
    value. -/
def Param.piece (p : Param) : Piece :=
  ⟨p.name.map Identifier.text, String.ofList p.value.chars⟩

theorem Param.foldl_chars (p : Param) (pieces : Array Piece) :
    p.chars.foldl Splitter.step ⟨pieces, .empty, .outside⟩ = ⟨pieces, p.piece, .outside⟩ := by
  have hvalue := p.value.carries_chars 0 pieces
  unfold Param.chars Param.piece
  cases p.name with
  | none =>
    show List.foldl Splitter.step ⟨pieces, .empty, bracketed 0⟩ p.value.chars = _
    rw [hvalue]
    show (⟨pieces, ⟨none, "" ++ _⟩, bracketed 0⟩ : Splitter) = _
    rw [String.empty_append]
    rfl
  | some name =>
    -- the sign behind the name begins the value
    have hname := carries_word name.isWord_text 0 pieces .empty
    show List.foldl Splitter.step ⟨pieces, .empty, bracketed 0⟩
      (name.text.toList ++ ['='] ++ p.value.chars) = _
    rw [List.foldl_append, List.foldl_append, hname]
    show List.foldl Splitter.step
      ⟨pieces, ⟨some ("" ++ String.ofList name.text.toList), ""⟩, bracketed 0⟩ _ = _
    rw [hvalue, String.empty_append, String.ofList_toList, String.empty_append]
    rfl

section Row

variable {α : Type} {chars : α → List Char} {piece : α → Piece} {as : List α}

/-- Texts behind the first are split at the commas before them, if each is taken as one piece. -/
theorem pieces_row
    (h : ∀ a ∈ as, ∀ pieces, (chars a).foldl Splitter.step ⟨pieces, .empty, .outside⟩ =
      ⟨pieces, piece a, .outside⟩) (pieces : Array Piece) (p : Piece) :
    ∃ pieces' p', ((as.map chars).flatMap (',' :: ·)).foldl Splitter.step ⟨pieces, p, .outside⟩ =
        ⟨pieces', p', .outside⟩ ∧
      pieces'.push p' = pieces.push p ++ (as.map piece).toArray := by
  induction as generalizing pieces p with
  | nil => exact ⟨pieces, p, rfl, by simp⟩
  | cons a as ih =>
    have ha := h a List.mem_cons_self
    obtain ⟨pieces', p', hrun, heq⟩ :=
      ih (fun b hb => h b (List.mem_cons_of_mem a hb)) (pieces.push p) (piece a)
    refine ⟨pieces', p', ?_, ?_⟩
    · rw [List.map_cons, List.flatMap_cons, List.cons_append, List.foldl_cons]
      show List.foldl Splitter.step ⟨pieces.push p, .empty, .outside⟩ _ = _
      rw [List.foldl_append, ha, hrun]
    · rw [heq]
      simp

/-- Texts with commas between them are split into them, if each is taken as one piece; without any
    there is one piece without characters. -/
theorem split_row
    (h : ∀ a ∈ as, ∀ pieces, (chars a).foldl Splitter.step ⟨pieces, .empty, .outside⟩ =
      ⟨pieces, piece a, .outside⟩) :
    Piece.split (String.ofList (listed ',' (as.map chars))) =
      if as = [] then [.empty] else as.map piece := by
  unfold Piece.split
  rw [String.toList_ofList]
  cases as with
  | nil => rfl
  | cons a as =>
    obtain ⟨pieces, p, hrun, heq⟩ :=
      pieces_row (fun b hb => h b (List.mem_cons_of_mem a hb)) #[] (piece a)
    rw [List.map_cons, listed, List.foldl_append, h a List.mem_cons_self, hrun]
    dsimp only
    rw [heq, if_neg (List.cons_ne_nil a as)]
    simp

end Row

/-! ## Reading -/

/-- A word has no white space at its ends, so a name is bound as it is written. -/
theorem trim_word {cs : List Char} (hcs : IsWord cs) : Text.trim cs = cs := by
  have hkeep : ∀ ds : List Char, IsWord ds → ds.dropWhile Text.isBlank = ds := by
    intro ds hds
    have hhead : ∀ c ∈ ds.head?, Text.isBlank c = false :=
      fun c hc => isBlank_of_isOrdinary (hds c (List.mem_of_head? hc))
    exact (span_append (fun c hc => absurd hc List.not_mem_nil) hhead).2
  unfold Text.trim Text.trimEnd Text.trimStart
  rw [hkeep cs hcs, hkeep cs.reverse fun c hc => hcs c (List.mem_reverse.mp hc), List.reverse_reverse]

/-- The text of a value does not look like white space, so a parameter takes its position. -/
theorem Value.isAllBlank_chars (v : Value) : Text.isAllBlank (String.ofList v.chars) = false := by
  have hsome : ∃ c ∈ v.chars, Text.isBlank c = false := by
    cases v with
    | number n =>
      obtain ⟨c, cs, hcs⟩ := List.exists_cons_of_ne_nil n.chars_ne_nil
      have hc : c ∈ n.chars := hcs ▸ List.mem_cons_self
      exact ⟨c, hc, isBlank_of_isOrdinary (n.isWord_chars c hc)⟩
    | boolean b =>
      cases b with
      | true => exact ⟨'t', by decide, by decide⟩
      | false => exact ⟨'f', by decide, by decide⟩
    | string marks => exact ⟨'"', List.mem_cons_self, by decide⟩
    | vector items => exact ⟨'[', List.mem_cons_self, by decide⟩
  obtain ⟨c, hc, hblank⟩ := hsome
  unfold Text.isAllBlank
  rw [String.toList_ofList, List.all_eq_false]
  exact ⟨c, hc, by rw [hblank]; decide⟩

/-- The piece of a parameter binds what the parameter binds, at the position `index`. -/
theorem addPiece_piece (line : Int) (index : Nat) (ps : Params) (p : Param) :
    ps.addPiece line index p.piece = ps.insert (p.boundName index) (p.value.literal line) := by
  unfold Params.addPiece Param.piece Param.boundName
  rw [p.value.read?_chars line]
  cases p.name with
  | none => rfl
  | some name =>
    show ps.insert (String.ofList (Text.trim name.text.toList)) _ = _
    rw [trim_word name.isWord_text, String.ofList_toList]
    rfl

/-- **A parameter list is read back to its bindings.**  Every parameter takes a position, named or
    not. -/
theorem read_params (line : Int) (params : List Param) :
    Params.read line (String.ofList (listed ',' (params.map Param.chars))) =
      bindings line params := by
  have hkept : (params.map Param.piece).filter (!·.isBlank) = params.map Param.piece := by
    rw [List.filter_eq_self]
    intro piece hpiece
    obtain ⟨p, _, rfl⟩ := List.mem_map.mp hpiece
    simp [Piece.isBlank, Param.piece, p.value.isAllBlank_chars]
  have hpieces : (Piece.split (String.ofList (listed ',' (params.map Param.chars)))).filter
      (!·.isBlank) = params.map Param.piece := by
    rw [split_row fun p _ => p.foldl_chars]
    split
    · rename_i hnil
      rw [hnil]
      rfl
    · exact hkept
  unfold Params.read bindings
  dsimp only
  rw [hpieces, List.zipIdx_map, List.foldl_map]
  simp only [Prod.map_fst, Prod.map_snd, id_eq, addPiece_piece]

/-- A text is split at the closing parenthesis behind which there is no other. -/
theorem splitAtLast?_append (cs : List Char) {behind : List Char} (h : ')' ∉ behind) :
    Signature.splitAtLast? (cs ++ ')' :: behind) = some (cs, behind) := by
  have hbehind : ∀ c ∈ behind.reverse, (c != ')') = true :=
    fun c hc => bne_iff_ne.mpr fun heq => h (heq ▸ List.mem_reverse.mp hc)
  have hparen : ∀ c ∈ (')' :: cs.reverse).head?, (c != ')') = false := by
    intro c hc
    cases hc
    decide
  have hreverse : (cs ++ ')' :: behind).reverse = behind.reverse ++ ')' :: cs.reverse := by simp
  obtain ⟨htake, hdrop⟩ := span_append hbehind hparen
  unfold Signature.splitAtLast?
  rw [hreverse, htake, hdrop]
  dsimp only
  rw [List.reverse_reverse, List.reverse_reverse]

/-- A tag with a list in parentheses is read as the tag and the bindings of the list, whatever is in
    the list. -/
theorem read_call (line : Int) (tag : Identifier) (list : List Char) :
    Signature.read line (String.ofList (tag.text.toList ++ '(' :: (list ++ [')']))) =
      .ok ⟨tag.text, Params.read line (String.ofList list)⟩ := by
  -- no character of the tag is the parenthesis that ends it
  have hbefore : ∀ c ∈ tag.text.toList, (c != '(') = true := by
    intro c hc
    have hne := ne_of_isOrdinary (tag.isWord_text c hc) (d := '(') (by decide)
    simpa using hne
  have hparen : ∀ c ∈ ('(' :: (list ++ [')'])).head?, (c != '(') = false := by
    intro c hc
    cases hc
    decide
  obtain ⟨htake, hdrop⟩ := span_append hbefore hparen
  have htag : Signature.tagOf (String.ofList (tag.text.toList ++ '(' :: (list ++ [')']))) =
      tag.text := by
    unfold Signature.tagOf
    rw [String.toList_ofList, htake, trim_word tag.isWord_text, String.ofList_toList]
  unfold Signature.read
  rw [htag]
  dsimp only
  rw [if_pos tag.isTag, String.toList_ofList, hdrop]
  dsimp only
  rw [splitAtLast?_append list List.not_mem_nil]
  rfl

/-- What is split at the last closing parenthesis has that parenthesis between its parts. -/
theorem splitAtLast?_eq_some {cs list behind : List Char}
    (h : Signature.splitAtLast? cs = some (list, behind)) : cs = list ++ ')' :: behind := by
  by_cases hmem : ')' ∈ cs.reverse
  · obtain ⟨tail, head, hreverse, htail⟩ := List.eq_append_cons_of_mem hmem
    have hcs : cs = head.reverse ++ ')' :: tail.reverse := by
      rw [← List.reverse_reverse cs, hreverse]
      simp
    rw [hcs, splitAtLast?_append _ (fun hin => htail (List.mem_reverse.mp hin))] at h
    obtain ⟨rfl, rfl⟩ := Prod.mk.inj (Option.some.inj h)
    exact hcs
  · have hdrop : cs.reverse.dropWhile (· != ')') = [] :=
      List.dropWhile_eq_nil_iff.mpr fun c hc => bne_iff_ne.mpr fun heq => hmem (heq ▸ hc)
    unfold Signature.splitAtLast? at h
    rw [hdrop] at h
    exact nomatch h

/-- **All that reading a signature can give.**  Its tag is a name, and the signature has no parenthesis
    and then no parameters, or it has a list between its first parenthesis and the last closing one,
    with nothing but white space behind, and then the parameters are those of the list. -/
theorem read_ok {line : Int} {signature : String} {x : Signature}
    (h : Signature.read line signature = .ok x) :
    Signature.isTag (Signature.tagOf signature) = true ∧
      (('(' ∉ signature.toList ∧ x.params = .empty) ∨
        ∃ front list behind, signature.toList = front ++ '(' :: (list ++ ')' :: behind) ∧
          '(' ∉ front ∧ (∀ c ∈ behind, Text.isBlank c = true) ∧
          x.params = Params.read line (String.ofList list)) := by
  unfold Signature.read at h
  dsimp only at h
  split at h
  · rename_i htag
    refine ⟨htag, ?_⟩
    split at h
    · rename_i hdrop
      refine Or.inl ⟨fun hmem => ?_, (Except.ok.inj h).symm ▸ rfl⟩
      exact absurd (List.dropWhile_eq_nil_iff.mp hdrop _ hmem) (by decide)
    · rename_i p rest hdrop
      have hopen : p = '(' := by
        have hstop := List.head?_dropWhile_not (· != '(') signature.toList
        rw [hdrop] at hstop
        simpa using hstop
      split at h
      · rename_i list behind hsplit
        split at h
        · rename_i hblank
          refine Or.inr ⟨signature.toList.takeWhile (· != '('), list, behind, ?_, fun hmem => ?_,
            List.all_eq_true.mp hblank, (Except.ok.inj h).symm ▸ rfl⟩
          · rw [hopen] at hdrop
            rw [← splitAtLast?_eq_some hsplit, ← hdrop, List.takeWhile_append_dropWhile]
          · exact absurd (List.mem_takeWhile_imp hmem) (by decide)
        · exact nomatch h
      · exact nomatch h
  · exact nomatch h

/-- **A signature is read back to its tag and its bindings.** -/
theorem read_signature (line : Int) (tag : Identifier) (params : List Param) :
    Signature.read line (String.ofList (Call.signature tag params)) =
      .ok ⟨tag.text, bindings line params⟩ := by
  rw [Call.signature, read_call, read_params]

/-! ## Bindings -/

/-- **A name is bound to the last parameter that binds it**, be it by its name or by its
    position. -/
theorem get?_bindings (line : Int) (params : List Param) (name : String) :
    (bindings line params).get? name = (lastBound? params name).map (Value.literal line) := by
  unfold bindings lastBound?
  -- from the end: the last binding of a name decides, any other leaves the earlier ones
  induction params.zipIdx using List.reverseRecOn with
  | nil => rfl
  | append_singleton bound last ih =>
    obtain ⟨p, index⟩ := last
    rw [List.foldl_append, List.reverse_append]
    show List.lookup name (Named.set (p.boundName index) _ _) =
      Option.map _ (Option.map _ (List.find? _ ((p, index) :: bound.reverse)))
    by_cases h : p.boundName index = name
    · rw [h, Named.lookup_set_self, List.find?_cons_of_pos (by simpa using h)]
      rfl
    · rw [Named.lookup_set_of_ne (Ne.symm h), List.find?_cons_of_neg (by simpa using h), ← ih]
      rfl

end SolidExport.Source
