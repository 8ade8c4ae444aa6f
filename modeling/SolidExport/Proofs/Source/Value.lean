/-
  Reading values back.

  The text of a value is first cut into tokens.  A word ends only at what follows it, so the lemmas
  on cutting speak of the tokens once the pending word is counted (`Cutter.settle`).  The tokens of a
  value are then assembled to its literal above any stack of open vectors (`Value.assembles_tokens`).

  Both go by induction on the value, with one lemma for the items of a vector behind the first.
-/
import SolidExport.Proofs.Source.Word

namespace SolidExport.Source

open Literal (Token Pending Cutter Assembly)

namespace Value

/-- Induction on a value: a property holds of every value if it holds of scalars, and of a vector
    whenever it holds of each of its items. -/
@[elab_as_elim]
theorem induction {motive : Value → Prop} (number : ∀ n, motive (.number n))
    (boolean : ∀ b, motive (.boolean b)) (string : ∀ marks, motive (.string marks))
    (vector : ∀ items, (∀ v ∈ items, motive v) → motive (.vector items)) (v : Value) :
    motive v := by
  cases v with
  | number n => exact number n
  | boolean b => exact boolean b
  | string marks => exact string marks
  | vector items =>
    refine vector items fun v hv => ?_
    have hlt : sizeOf v < sizeOf (Value.vector items) := by
      have h : sizeOf v < sizeOf items := List.sizeOf_lt_of_mem hv
      simp only [Value.vector.sizeOf_spec]
      omega
    exact induction number boolean string vector v
termination_by sizeOf v

theorem allChars_eq (vs : List Value) : allChars vs = vs.map chars := by
  induction vs with
  | nil => rfl
  | cons v vs ih => rw [allChars, ih, List.map_cons]

theorem literals_eq (line : Int) (vs : List Value) : literals line vs = vs.map (literal line) := by
  induction vs with
  | nil => rfl
  | cons v vs ih => rw [literals, ih, List.map_cons]

mutual

/-- `v.tokens` — the tokens that the value `v` is written with.  An escape in a string leaves no
    trace in them. -/
def tokens : Value → List Token
  | .number n => [.word (String.ofList n.chars)]
  | .boolean b => [.word (Literal.booleanText b)]
  | .string marks => [.quoted (String.ofList (marks.map Mark.char))]
  | .vector items => .opening :: (listed .comma (allTokens items) ++ [.closing])

def allTokens : List Value → List (List Token)
  | [] => []
  | v :: vs => v.tokens :: allTokens vs

end

theorem allTokens_eq (vs : List Value) : allTokens vs = vs.map tokens := by
  induction vs with
  | nil => rfl
  | cons v vs ih => rw [allTokens, ih, List.map_cons]

end Value

/-! ## Cutting -/

/-- `c.settle` — the cutter `c` with the pending word counted as a token, as any character that is
    no part of it would do. -/
def Cutter.settle (c : Cutter) : Cutter :=
  match c.pending with
  | .word text => c.emit (.word text)
  | _ => c

/-- A comma or a closing bracket ends the pending word and is a token itself. -/
theorem step_separator {c : Cutter} {done : Array Token} (hc : Cutter.settle c = ⟨done, .idle⟩) :
    c.step ',' = ⟨done.push .comma, .idle⟩ ∧ c.step ']' = ⟨done.push .closing, .idle⟩ := by
  obtain ⟨tokens, pending⟩ := c
  cases pending with
  | idle =>
    injection hc with htokens
    subst htokens
    exact ⟨rfl, rfl⟩
  | word text =>
    injection hc with htokens
    subst htokens
    exact ⟨rfl, rfl⟩
  | quoted value escaped =>
    injection hc with _ hpending
    exact nomatch hpending

theorem finish_of_settle {c : Cutter} {done : Array Token}
    (hc : Cutter.settle c = ⟨done, .idle⟩) : c.finish = some done.toList := by
  obtain ⟨tokens, pending⟩ := c
  cases pending with
  | idle =>
    injection hc with htokens
    subst htokens
    rfl
  | word text =>
    injection hc with htokens
    subst htokens
    rfl
  | quoted value escaped =>
    injection hc with _ hpending
    exact nomatch hpending

/-- An ordinary character between tokens begins a word. -/
theorem start_ordinary {c : Char} (hc : isOrdinary c = true) (s : Cutter) :
    s.start c = { s with pending := .word (String.singleton c) } := by
  unfold Cutter.start
  rw [if_neg (by rw [isBlank_of_isOrdinary hc]; decide)]
  split
  · exact absurd hc (by decide)
  · exact absurd hc (by decide)
  · exact absurd hc (by decide)
  · exact absurd hc (by decide)
  · rfl

theorem endsWord_ordinary {c : Char} (hc : isOrdinary c = true) : Cutter.endsWord c = false := by
  have h1 := ne_of_isOrdinary hc (d := '[') (by decide)
  have h2 := ne_of_isOrdinary hc (d := ']') (by decide)
  have h3 := ne_of_isOrdinary hc (d := ',') (by decide)
  have h4 := ne_of_isOrdinary hc (d := '"') (by decide)
  simp [Cutter.endsWord, isBlank_of_isOrdinary hc, h1, h2, h3, h4]

/-- Ordinary characters go on with the pending word. -/
theorem foldl_word {cs : List Char} (hcs : IsWord cs) (done : Array Token) (text : String) :
    cs.foldl Cutter.step ⟨done, .word text⟩ = ⟨done, .word (text ++ String.ofList cs)⟩ := by
  induction cs generalizing text with
  | nil => simp
  | cons c cs ih =>
    have hstep : Cutter.step ⟨done, .word text⟩ c = ⟨done, .word (text.push c)⟩ := by
      show (if Cutter.endsWord c = true then _ else _) = _
      rw [endsWord_ordinary (hcs c List.mem_cons_self)]
      rfl
    rw [List.foldl_cons, hstep, ih fun d hd => hcs d (List.mem_cons_of_mem c hd), push_append]

/-- Marks go on with the pending string, each with the character it means. -/
theorem foldl_marks (marks : List Mark) (done : Array Token) (value : String) :
    (marks.flatMap Mark.chars).foldl Cutter.step ⟨done, .quoted value false⟩ =
      ⟨done, .quoted (value ++ String.ofList (marks.map Mark.char)) false⟩ := by
  induction marks generalizing value with
  | nil => simp
  | cons m marks ih =>
    have hmark : m.chars.foldl Cutter.step ⟨done, .quoted value false⟩ =
        ⟨done, .quoted (value.push m.char) false⟩ := by
      cases m with
      | escaped c => rfl
      | bare c free =>
        show (if c = '"' then _ else if c = '\\' then _ else _) = _
        rw [if_neg free.1, if_neg free.2]
        rfl
    rw [List.flatMap_cons, List.foldl_append, hmark, ih, push_append, List.map_cons]

/-- `Cuts cs ts` — the text `cs` is cut into the tokens `ts`, if nothing is pending before it and
    the word that may be pending behind it counts as ended. -/
def Cuts (cs : List Char) (ts : List Token) : Prop :=
  ∀ done : Array Token, Cutter.settle (cs.foldl Cutter.step ⟨done, .idle⟩) = ⟨done ++ ts.toArray, .idle⟩

theorem cuts_word {cs : List Char} (hcs : IsWord cs) (hne : cs ≠ []) :
    Cuts cs [.word (String.ofList cs)] := by
  intro done
  cases cs with
  | nil => exact absurd rfl hne
  | cons c cs =>
    have hstart : Cutter.step ⟨done, .idle⟩ c = ⟨done, .word (String.singleton c)⟩ :=
      start_ordinary (hcs c List.mem_cons_self) _
    rw [List.foldl_cons, hstart, foldl_word fun d hd => hcs d (List.mem_cons_of_mem c hd)]
    show (⟨done.push (.word (String.singleton c ++ String.ofList cs)), .idle⟩ : Cutter) = _
    rw [← String.ofList_cons]
    simp

/-- The items of a vector behind its first are cut, whatever word is pending before them. -/
theorem settle_items {vs : List Value} (hvs : ∀ v ∈ vs, Cuts v.chars v.tokens) {c : Cutter}
    {done : Array Token} (hc : Cutter.settle c = ⟨done, .idle⟩) :
    Cutter.settle (((vs.map Value.chars).flatMap (',' :: ·)).foldl Cutter.step c) =
      ⟨done ++ ((vs.map Value.tokens).flatMap (Token.comma :: ·)).toArray, .idle⟩ := by
  induction vs generalizing c done with
  | nil => simpa using hc
  | cons v vs ih =>
    have hv := hvs v List.mem_cons_self (done.push .comma)
    have hvs' := ih (fun w hw => hvs w (List.mem_cons_of_mem v hw)) hv
    simp only [List.map_cons, List.flatMap_cons, List.cons_append, List.foldl_cons,
      List.foldl_append, (step_separator hc).1]
    rw [hvs']
    simp

/-- **A value is cut into its tokens.**  By induction on the value. -/
theorem Value.cuts_chars (v : Value) : Cuts v.chars v.tokens := by
  induction v using Value.induction with
  | number n => exact cuts_word n.isWord_chars n.chars_ne_nil
  | boolean b =>
    have h := cuts_word (isWord_booleanText b) (by cases b <;> decide)
    rwa [String.ofList_toList] at h
  | string marks =>
    intro done
    have hopen : Cutter.step ⟨done, .idle⟩ '"' = ⟨done, .quoted "" false⟩ := rfl
    rw [Value.chars, List.foldl_cons, hopen, List.foldl_append, foldl_marks]
    show (⟨done.push (.quoted ("" ++ _)), .idle⟩ : Cutter) = _
    simp [Value.tokens]
  | vector items ih =>
    intro done
    have hopen : Cutter.step ⟨done, .idle⟩ '[' = ⟨done.push .opening, .idle⟩ := rfl
    rw [Value.chars, Value.tokens, List.foldl_cons, hopen, List.foldl_append, Value.allChars_eq,
      Value.allTokens_eq]
    -- the closing bracket finds the items cut
    have hitems : Cutter.settle ((listed ',' (items.map Value.chars)).foldl Cutter.step
        ⟨done.push .opening, .idle⟩) =
          ⟨done.push .opening ++ (listed .comma (items.map Value.tokens)).toArray, .idle⟩ := by
      cases items with
      | nil => rfl
      | cons v vs =>
        have hv := ih v List.mem_cons_self (done.push .opening)
        have hvs := settle_items (fun w hw => ih w (List.mem_cons_of_mem v hw)) hv
        rw [List.map_cons, List.map_cons, listed, listed, List.foldl_append, hvs]
        simp
    show Cutter.settle (Cutter.step _ ']') = _
    rw [(step_separator hitems).2]
    show (⟨_, .idle⟩ : Cutter) = _
    simp

/-! ## Assembly -/

/-- The tokens of a value begin with no closing bracket, so a vector with items is told from an
    empty one. -/
theorem Value.tokens_cons (v : Value) : ∃ t ts, v.tokens = t :: ts ∧ t ≠ .closing := by
  cases v with
  | number n => exact ⟨_, _, rfl, nofun⟩
  | boolean b => exact ⟨_, _, rfl, nofun⟩
  | string marks => exact ⟨_, _, rfl, nofun⟩
  | vector items => exact ⟨_, _, rfl, nofun⟩

/-- A token that begins a value is taken alike behind an opening bracket and behind a comma. -/
theorem step_opened {t : Token} (ht : t ≠ .closing) (line : Int) (stack : List (List Literal)) :
    Assembly.step line (.opened stack) t = Assembly.step line (.expecting stack) t := by
  cases t with
  | closing => exact absurd rfl ht
  | opening => cases stack <;> rfl
  | comma => cases stack <;> rfl
  | quoted value => cases stack <;> rfl
  | word text => cases stack <;> rfl

/-- `Assembles line ts v` — the tokens `ts`, read on `line`, are assembled to the literal `v`, above
    every stack of open vectors. -/
def Assembles (line : Int) (ts : List Token) (v : Literal) : Prop :=
  ∀ stack, ts.foldlM (Assembly.step line) (.expecting stack) = some (.completed v stack)

/-- The items of a vector behind its first are added to it one by one, each behind a comma. -/
theorem foldlM_items {line : Int} {vs : List Value}
    (hvs : ∀ v ∈ vs, Assembles line v.tokens (v.literal line)) (done : Literal)
    (items : List Literal) (stack : List (List Literal)) :
    ∃ done' items', ((vs.map Value.tokens).flatMap (Token.comma :: ·)).foldlM (Assembly.step line)
        (.completed done (items :: stack)) = some (.completed done' (items' :: stack)) ∧
      (done' :: items').reverse = (done :: items).reverse ++ vs.map (Value.literal line) := by
  induction vs generalizing done items with
  | nil => exact ⟨done, items, rfl, (List.append_nil _).symm⟩
  | cons v vs ih =>
    have hv := hvs v List.mem_cons_self ((done :: items) :: stack)
    obtain ⟨done', items', hrun, heq⟩ :=
      ih (fun w hw => hvs w (List.mem_cons_of_mem v hw)) (v.literal line) (done :: items)
    refine ⟨done', items', ?_, ?_⟩
    · rw [List.map_cons, List.flatMap_cons, List.cons_append, List.foldlM_cons]
      show List.foldlM _ (Assembly.expecting ((done :: items) :: stack)) _ = _
      rw [List.foldlM_append, hv]
      exact hrun
    · rw [heq, List.reverse_cons, List.append_assoc]
      rfl

/-- **The tokens of a value are assembled to its literal**, above every stack.  By induction on the
    value. -/
theorem Value.assembles_tokens (line : Int) (v : Value) :
    Assembles line v.tokens (v.literal line) := by
  induction v using Value.induction with
  | number n =>
    intro stack
    show (Option.map _ (Literal.ofWord? line (String.ofList n.chars)) >>= _) = _
    rw [ofWord?_number]
    rfl
  | boolean b =>
    intro stack
    show (Option.map _ (Literal.ofWord? line (Literal.booleanText b)) >>= _) = _
    rw [ofWord?_boolean]
    rfl
  | string marks => exact fun stack => rfl
  | vector items ih =>
    intro stack
    rw [Value.tokens, Value.literal, Value.allTokens_eq, Value.literals_eq]
    cases items with
    | nil => rfl
    | cons v vs =>
      have hv := ih v List.mem_cons_self ([] :: stack)
      obtain ⟨done, rest, hrun, heq⟩ :=
        foldlM_items (fun w hw => ih w (List.mem_cons_of_mem v hw)) (v.literal line) [] stack
      -- the first item stands behind the opening bracket
      have hfirst : v.tokens.foldlM (Assembly.step line) (.opened ([] :: stack)) =
          some (.completed (v.literal line) ([] :: stack)) := by
        obtain ⟨t, ts, htokens, ht⟩ := v.tokens_cons
        rw [htokens, List.foldlM_cons] at hv ⊢
        rw [step_opened ht, hv]
      rw [List.map_cons, listed, List.foldlM_cons]
      show List.foldlM _ (Assembly.opened ([] :: stack)) _ = _
      rw [List.foldlM_append, List.foldlM_append, hfirst, Option.bind_eq_bind, Option.bind_some,
        hrun]
      show some (Assembly.completed (.vector line (done :: rest).reverse) stack) = _
      rw [heq]
      rfl

/-- **A value is read back from its text**, on whatever line. -/
theorem Value.read?_chars (line : Int) (v : Value) :
    Literal.read? line (String.ofList v.chars) = some (v.literal line) := by
  have hcut := finish_of_settle (v.cuts_chars #[])
  have hassembled := v.assembles_tokens line []
  rw [Array.empty_append] at hcut
  unfold Literal.read? Literal.tokens? Literal.ofTokens?
  rw [String.toList_ofList, hcut, Option.bind_some, hassembled]
  rfl

end SolidExport.Source
