/-
  What the reader of literals accepts.

  The two passes are taken apart from the end.  A word that is read as a literal is a number or a
  truth value of the grammar (`ofWord?_sound`); tokens that are assembled to a literal are those of a
  value (`ofTokens?_sound`); and a text that is cut into the tokens of a value is a phrase between
  white space (`Spells.phrase`), so there is a derivation behind every literal that is read
  (`exists_derivation`).

  For the assembly the invariant says which tokens the open vectors have taken (`Assembly.Takes`), for
  the cutting which text the tokens so far were written as (`Cutter.Cut`).
-/
import SolidExport.Proofs.Literal.Grammar

namespace SolidExport.Source

open Literal (Token Pending Cutter Assembly)

/-! ## Words -/

theorem exists_sign (cs : List Char) : ∃ s : Sign, cs = s.chars ++ (Decimal.readSign cs).2 := by
  unfold Decimal.readSign
  split
  · exact ⟨.plus, rfl⟩
  · exact ⟨.minus, rfl⟩
  · exact ⟨.unsigned, rfl⟩

/-- A text that is read as an exponent, or as none, is written as one of the grammar. -/
theorem exists_exponent {cs : List Char} {e : Int} (h : Decimal.readExponent? cs = some e) :
    ∃ exponent : Option Exponent, exponent.elim [] Exponent.chars = cs := by
  cases cs with
  | nil => exact ⟨none, rfl⟩
  | cons c cs =>
    unfold Decimal.readExponent? at h
    dsimp only at h
    by_cases hletter : c = 'e' ∨ c = 'E'
    · rw [if_pos hletter] at h
      by_cases hdigits : (Decimal.readSign cs).2 ≠ [] ∧ (Decimal.readSign cs).2.all isDigit = true
      · obtain ⟨s, hs⟩ := exists_sign cs
        refine ⟨some ⟨decide (c = 'E'), s, (Decimal.readSign cs).2, hdigits.2, hdigits.1⟩, ?_⟩
        show (if decide (c = 'E') = true then 'E' else 'e') :: (s.chars ++ (Decimal.readSign cs).2) = _
        rw [← hs]
        rcases hletter with rfl | rfl <;> rfl
      · rw [if_neg hdigits] at h
        exact nomatch h
    · rw [if_neg hletter] at h
      exact nomatch h

/-- A text that is read as a decimal without a sign is a numeral of the grammar, under any sign. -/
theorem exists_numeral_unsigned {cs : List Char} {d : Decimal} (sign : Sign)
    (h : Decimal.readUnsigned? cs = some d) :
    ∃ n : Numeral, n.sign = sign ∧ n.unsignedChars = cs := by
  have hwhole : (cs.takeWhile isDigit).all isDigit = true := List.all_takeWhile
  have hcs : cs.takeWhile isDigit ++ cs.dropWhile isDigit = cs := List.takeWhile_append_dropWhile
  unfold Decimal.readUnsigned? at h
  dsimp only at h
  generalize cs.dropWhile isDigit = rest at h hcs
  generalize cs.takeWhile isDigit = whole at h hcs hwhole
  split at h
  · rename_i r
    -- there is a point, and the fraction goes as far as there are digits
    by_cases hnone : whole = [] ∧ r.takeWhile isDigit = []
    · rw [if_pos hnone] at h
      exact nomatch h
    · rw [if_neg hnone, Option.map_eq_some_iff] at h
      obtain ⟨e, he, -⟩ := h
      obtain ⟨exponent, hexponent⟩ := exists_exponent he
      refine ⟨⟨sign, whole, some (r.takeWhile isDigit), exponent, hwhole, List.all_takeWhile,
        ?_⟩, rfl, ?_⟩
      · by_cases hw : whole = []
        · exact Or.inr fun hf => hnone ⟨hw, hf⟩
        · exact Or.inl hw
      · show whole ++ ('.' :: r.takeWhile isDigit ++ exponent.elim [] Exponent.chars) = cs
        rw [hexponent, List.cons_append, List.takeWhile_append_dropWhile, hcs]
  · by_cases hnone : whole = [] ∧ ([] : List Char) = []
    · rw [if_pos hnone] at h
      exact nomatch h
    · rw [if_neg hnone, Option.map_eq_some_iff] at h
      obtain ⟨e, he, -⟩ := h
      obtain ⟨exponent, hexponent⟩ := exists_exponent he
      refine ⟨⟨sign, whole, none, exponent, hwhole, rfl, ?_⟩, rfl, ?_⟩
      · exact Or.inl fun hw => hnone ⟨hw, rfl⟩
      · show whole ++ ([] ++ exponent.elim [] Exponent.chars) = cs
        rw [hexponent, List.nil_append, hcs]

/-- **A text that is read as a number is a numeral of the grammar.**  So words are read by the
    grammar and nothing more. -/
theorem exists_numeral {cs : List Char} {x : Float} (h : Decimal.readFloat? cs = some x) :
    ∃ n : Numeral, n.chars = cs := by
  unfold Decimal.readFloat? at h
  rw [Option.map_eq_some_iff] at h
  obtain ⟨⟨negative, d⟩, hread, -⟩ := h
  unfold Decimal.read? at hread
  dsimp only at hread
  rw [Option.map_eq_some_iff] at hread
  obtain ⟨d', hunsigned, -⟩ := hread
  obtain ⟨s, hs⟩ := exists_sign cs
  obtain ⟨n, hsign, hchars⟩ := exists_numeral_unsigned s hunsigned
  refine ⟨n, ?_⟩
  unfold Numeral.chars
  rw [hsign, hchars, ← hs]

/-- A word that is a literal is the only token of a value with that literal. -/
theorem ofWord?_sound {line : Int} {word : String} {l : Literal}
    (h : Literal.ofWord? line word = some l) :
    ∃ v : Value, v.tokens = [.word word] ∧ v.literal line = l := by
  have hread := h
  unfold Literal.ofWord? at h
  by_cases htrue : word = "true"
  · rw [if_pos htrue] at h
    exact ⟨.boolean true, congrArg (fun w => [Token.word w]) htrue.symm, Option.some.inj h⟩
  · rw [if_neg htrue] at h
    by_cases hfalse : word = "false"
    · rw [if_pos hfalse] at h
      exact ⟨.boolean false, congrArg (fun w => [Token.word w]) hfalse.symm, Option.some.inj h⟩
    · rw [if_neg hfalse, Option.map_eq_some_iff] at h
      obtain ⟨x, hx, -⟩ := h
      obtain ⟨n, hn⟩ := exists_numeral hx
      have hword : String.ofList n.chars = word := by rw [hn, String.ofList_toList]
      refine ⟨.number n, congrArg (fun w => [Token.word w]) hword, ?_⟩
      rw [← hword, ofWord?_number] at hread
      exact Option.some.inj hread

/-! ## Assembly -/

/-- `openTokens stack` — the tokens that open vectors have taken, in the order of the text.  In
    `stack` the innermost vector comes first, and the latest item of each; behind every item a comma
    was read, or the vector would have been closed. -/
def openTokens : List (List Value) → List Token
  | [] => []
  | items :: stack =>
    openTokens stack ++ .opening :: items.reverse.flatMap fun v => v.tokens ++ [.comma]

/-- `openLiterals line stack` — the literals of the items of open vectors, as they are read on
    `line`. -/
def openLiterals (line : Int) (stack : List (List Value)) : List (List Literal) :=
  stack.map fun items => items.map (Value.literal line)

/-- `a.Takes line ts` — the tokens `ts` are what the assembly `a` has taken on `line`: those of its
    open vectors, and then those of the value it has completed, if it has one. -/
def Assembly.Takes (line : Int) (ts : List Token) : Assembly → Prop
  | .expecting stack => ∃ held, stack = openLiterals line held ∧ ts = openTokens held
  | .opened stack => ∃ held, stack = openLiterals line ([] :: held) ∧ ts = openTokens ([] :: held)
  | .completed done stack => ∃ v held, done = Value.literal line v ∧
      stack = openLiterals line held ∧ ts = openTokens held ++ v.tokens

/-- Items with a comma behind each, and one more behind them, are listed.  The assembly takes a
    vector so, the grammar writes it the other way. -/
theorem listed_snoc (ts : List (List Token)) (t : List Token) :
    listed .comma (ts ++ [t]) = ts.flatMap (· ++ [.comma]) ++ t := by
  induction ts with
  | nil => simp [listed]
  | cons u us ih =>
    have hnext : listed .comma (u :: (us ++ [t])) = u ++ .comma :: listed .comma (us ++ [t]) := by
      cases us with
      | nil => simp [listed]
      | cons w ws => simp [listed]
    rw [List.cons_append, hnext, ih]
    simp

/-- The tokens of an open vector, its last item and a closing bracket are those of the vector. -/
theorem openTokens_close (v : Value) (items : List Value) (held : List (List Value)) :
    openTokens (items :: held) ++ (v.tokens ++ [.closing]) =
      openTokens held ++ (Value.vector (v :: items).reverse).tokens := by
  have hitems : (v :: items).reverse.map Value.tokens = items.reverse.map Value.tokens ++ [v.tokens] := by
    simp
  rw [openTokens, Value.tokens, Value.allTokens_eq, hitems, listed_snoc, List.flatMap_map]
  simp

/-- A token that begins a value is taken, behind a comma and behind an opening bracket alike. -/
theorem begin_takes {line : Int} {held : List (List Value)} {t : Token} {a : Assembly}
    (h : Assembly.begin line (openLiterals line held) t = some a) :
    Assembly.Takes line (openTokens held ++ [t]) a := by
  cases t with
  | opening =>
    injection h with h
    subst h
    exact ⟨held, rfl, rfl⟩
  | quoted value =>
    injection h with h
    subst h
    have hvalue : String.ofList ((value.toList.map Mark.escaped).map Mark.char) = value := by
      have hchar : Mark.char ∘ Mark.escaped = id := rfl
      rw [List.map_map, hchar, List.map_id, String.ofList_toList]
    refine ⟨.string (value.toList.map Mark.escaped), held, ?_, rfl, ?_⟩
    · rw [Value.literal, hvalue]
    · rw [Value.tokens, hvalue]
  | word word =>
    obtain ⟨l, hl, ha⟩ := Option.map_eq_some_iff.mp h
    obtain ⟨v, htokens, hliteral⟩ := ofWord?_sound hl
    subst ha
    exact ⟨v, held, hliteral.symm, rfl, by rw [htokens]⟩
  | closing => cases h
  | comma => cases h

/-- **The step lemma.**  The assembly takes one token more, and its state is still made of all that
    it has taken. -/
theorem step_takes {line : Int} {ts : List Token} {t : Token} {a a' : Assembly}
    (ha : Assembly.Takes line ts a) (h : Assembly.step line a t = some a') :
    Assembly.Takes line (ts ++ [t]) a' := by
  cases a with
  | expecting stack =>
    obtain ⟨held, rfl, rfl⟩ := ha
    exact begin_takes h
  | opened stack =>
    obtain ⟨held, rfl, rfl⟩ := ha
    by_cases hclosing : t = .closing
    · subst hclosing
      injection h with h
      subst h
      refine ⟨.vector [], held, rfl, rfl, ?_⟩
      simp [openTokens, Value.tokens, Value.allTokens, listed]
    · rw [step_opened hclosing] at h
      exact begin_takes h
  | completed done stack =>
    obtain ⟨v, held, rfl, rfl, rfl⟩ := ha
    cases held with
    | nil => cases t <;> cases h
    | cons items held =>
      cases t with
      | comma =>
        injection h with h
        subst h
        refine ⟨(v :: items) :: held, rfl, ?_⟩
        simp [openTokens]
      | closing =>
        injection h with h
        subst h
        refine ⟨.vector (v :: items).reverse, held, ?_, rfl, ?_⟩
        · simp [Value.literal, Value.literals_eq]
        · rw [List.append_assoc, openTokens_close]
      | opening => cases h
      | quoted value => cases h
      | word word => cases h

/-- **The run lemma.**  The assembly takes the tokens `us` as it takes each of them. -/
theorem run_takes {line : Int} {ts us : List Token} {a a' : Assembly}
    (ha : Assembly.Takes line ts a) (h : us.foldlM (Assembly.step line) a = some a') :
    Assembly.Takes line (ts ++ us) a' := by
  induction us generalizing ts a with
  | nil =>
    injection h with h
    subst h
    rwa [List.append_nil]
  | cons t us ih =>
    rw [List.foldlM_cons] at h
    obtain ⟨m, hm, h⟩ := Option.bind_eq_some_iff.mp h
    have hrest := ih (step_takes ha hm) h
    rwa [List.append_assoc, List.singleton_append] at hrest

/-- **Tokens that are assembled to a literal are those of a value** with that literal. -/
theorem ofTokens?_sound {line : Int} {ts : List Token} {l : Literal}
    (h : Literal.ofTokens? line ts = some l) :
    ∃ v : Value, v.tokens = ts ∧ v.literal line = l := by
  obtain ⟨a, hrun, hfinish⟩ := Option.bind_eq_some_iff.mp h
  have hstart : Assembly.Takes line [] (.expecting []) := ⟨[], rfl, rfl⟩
  have htakes := run_takes hstart hrun
  cases a with
  | expecting stack => exact nomatch hfinish
  | opened stack => exact nomatch hfinish
  | completed done stack =>
    obtain ⟨v, held, rfl, rfl, hts⟩ := htakes
    cases held with
    | nil => exact ⟨v, hts.symm, Option.some.inj hfinish⟩
    | cons items held => exact nomatch hfinish

/-! ## Cutting -/

/-- `Lexeme t cs` — the characters `cs` are one way to write the token `t`.  A word may be written
    in one way only, a quoted text in many. -/
inductive Lexeme : Token → List Char → Prop where
  | opening : Lexeme .opening ['[']
  | closing : Lexeme .closing [']']
  | comma : Lexeme .comma [',']
  | quoted (marks : List Mark) :
    Lexeme (.quoted (String.ofList (marks.map Mark.char))) ('"' :: (marks.flatMap Mark.chars ++ ['"']))
  | word (text : String) : Lexeme (.word text) text.toList

/-- `Spells ts cs` — the text `cs` is the tokens `ts` in a row, with white space around them. -/
inductive Spells : List Token → List Char → Prop where
  | nil (g : Gap) : Spells [] g.chars
  | cons (g : Gap) {t : Token} {ts : List Token} {ds cs : List Char} (head : Lexeme t ds)
    (tail : Spells ts cs) : Spells (t :: ts) (g.chars ++ (ds ++ cs))

namespace Spells

variable {ts : List Token} {cs : List Char}

/-- White space at the end of a text spells no further token. -/
theorem snoc_blank (h : Spells ts cs) {c : Char} (hc : Text.isBlank c = true) :
    Spells ts (cs ++ [c]) := by
  induction h with
  | nil g =>
    refine Spells.nil ⟨g.chars ++ [c], ?_⟩
    rw [List.all_append, g.all_blank, List.all_cons, hc]
    rfl
  | cons g head tail ih =>
    rw [List.append_assoc, List.append_assoc]
    exact Spells.cons g head ih

/-- A token at the end of a text is spelled behind the others. -/
theorem snoc (h : Spells ts cs) {t : Token} {ds : List Char} (ht : Lexeme t ds) :
    Spells (ts ++ [t]) (cs ++ ds) := by
  induction h with
  | nil g =>
    have hone := Spells.cons g ht (.nil ⟨[], rfl⟩)
    rwa [List.append_nil] at hone
  | cons g head tail ih =>
    rw [List.append_assoc, List.append_assoc]
    exact Spells.cons g head ih

end Spells

/-- `c.Cut cs` — the text `cs` is what the cutter `c` has read: its tokens, then what is pending. -/
def Cutter.Cut (c : Cutter) (cs : List Char) : Prop :=
  match c.pending with
  | .idle => Spells c.tokens.toList cs
  | .word text => ∃ before, Spells c.tokens.toList before ∧ cs = before ++ text.toList
  | .quoted value escaped => ∃ (before : List Char) (marks : List Mark),
      Spells c.tokens.toList before ∧ value = String.ofList (marks.map Mark.char) ∧
      cs = before ++ '"' :: (marks.flatMap Mark.chars ++ if escaped then ['\\'] else [])

/-- A character between tokens is white space, or a token by itself, or begins one that is
    pending. -/
theorem start_cut {tokens : Array Token} {cs : List Char} (h : Spells tokens.toList cs)
    (pending : Pending) (ch : Char) : Cutter.Cut (Cutter.start ⟨tokens, pending⟩ ch) (cs ++ [ch]) := by
  have hemit : ∀ t, Lexeme t [ch] → Cutter.Cut (Cutter.emit ⟨tokens, pending⟩ t) (cs ++ [ch]) := by
    intro t ht
    show Spells (tokens.push t).toList _
    rw [Array.toList_push]
    exact h.snoc ht
  unfold Cutter.start
  split
  · rename_i hblank
    exact h.snoc_blank hblank
  · split
    · exact hemit _ .opening
    · exact hemit _ .closing
    · exact hemit _ .comma
    · exact ⟨cs, [], h, rfl, rfl⟩
    · exact ⟨cs, h, by simp⟩

/-- **The step lemma.**  One character more is cut: the text is still the tokens so far and what is
    pending. -/
theorem step_cut {c : Cutter} {cs : List Char} (h : Cutter.Cut c cs) (ch : Char) :
    Cutter.Cut (c.step ch) (cs ++ [ch]) := by
  obtain ⟨tokens, pending⟩ := c
  cases pending with
  | idle => exact start_cut h .idle ch
  | word text =>
    obtain ⟨before, hbefore, rfl⟩ := h
    show Cutter.Cut (if Cutter.endsWord ch = true then _ else _) _
    split
    · refine start_cut ?_ _ ch
      rw [Array.toList_push]
      exact hbefore.snoc (.word text)
    · exact ⟨before, hbefore, by simp⟩
  | quoted value escaped =>
    obtain ⟨before, marks, hbefore, rfl, rfl⟩ := h
    cases escaped with
    | true =>
      refine ⟨before, marks ++ [.escaped ch], hbefore, ?_, ?_⟩
      · simp [Mark.char]
      · simp [Mark.chars]
    | false =>
      show Cutter.Cut (if ch = '"' then _ else if ch = '\\' then _ else _) _
      split
      · rename_i hquote
        subst hquote
        show Spells (tokens.push _).toList _
        rw [Array.toList_push, List.append_assoc]
        have := hbefore.snoc (.quoted marks)
        simpa using this
      · rename_i hquote
        split
        · rename_i hslash
          subst hslash
          exact ⟨before, marks, hbefore, rfl, by simp⟩
        · rename_i hslash
          refine ⟨before, marks ++ [.bare ch ⟨hquote, hslash⟩], hbefore, ?_, ?_⟩
          · simp [Mark.char]
          · simp [Mark.chars]

/-- **The run lemma.**  The characters `ds` are cut as each of them is. -/
theorem run_cut {c : Cutter} {cs : List Char} (h : Cutter.Cut c cs) (ds : List Char) :
    Cutter.Cut (ds.foldl Cutter.step c) (cs ++ ds) := by
  induction ds generalizing c cs with
  | nil => rwa [List.append_nil]
  | cons d ds ih =>
    have hrest := ih (step_cut h d)
    rwa [List.append_assoc, List.singleton_append] at hrest

/-- **A text that is cut into tokens is written with them**, and with white space between them. -/
theorem tokens?_sound {cs : List Char} {ts : List Token} (h : Literal.tokens? cs = some ts) :
    Spells ts cs := by
  have hstart : Cutter.Cut ⟨#[], .idle⟩ [] := Spells.nil ⟨[], rfl⟩
  have hcut := run_cut hstart cs
  unfold Literal.tokens? at h
  rw [List.nil_append] at hcut
  generalize cs.foldl Cutter.step ⟨#[], .idle⟩ = c at h hcut
  obtain ⟨tokens, pending⟩ := c
  cases pending with
  | idle =>
    injection h with h
    subst h
    exact hcut
  | word text =>
    obtain ⟨before, hbefore, rfl⟩ := hcut
    injection h with h
    subst h
    rw [Array.toList_push]
    exact hbefore.snoc (.word text)
  | quoted value escaped => exact nomatch h

/-! ## Phrases -/

namespace Spells

/-- A text that spells the token `t` and others begins with white space and a way to write `t`. -/
theorem head {t : Token} {ts : List Token} {cs : List Char} (h : Spells (t :: ts) cs) :
    ∃ (g : Gap) (ds cs' : List Char), cs = g.chars ++ (ds ++ cs') ∧ Lexeme t ds ∧ Spells ts cs' := by
  cases h with
  | cons g head tail => exact ⟨g, _, _, rfl, head, tail⟩

/-- `Finds v` — wherever a text spells the tokens of the value `v` and then some others, a phrase
    with these tokens stands in front of it, behind white space, and what follows spells the others.
    So a text is taken apart value by value. -/
def Finds (v : Value) : Prop :=
  ∀ (ts : List Token) (cs : List Char), Spells (v.tokens ++ ts) cs →
    ∃ (g : Gap) (p : Phrase) (cs' : List Char), cs = g.chars ++ (p.chars ++ cs') ∧
      p.value.tokens = v.tokens ∧ Spells ts cs'

/-- The items of a vector are found one by one, up to the closing bracket, if each of them is.
    Between them stand commas with white space on either side. -/
theorem items {v : Value} {vs : List Value} (hv : Finds v) (hvs : ∀ w ∈ vs, Finds w)
    {ts : List Token} {cs : List Char}
    (h : Spells (listed .comma ((v :: vs).map Value.tokens) ++ .closing :: ts) cs) :
    ∃ (g : Gap) (items : Items) (cs' : List Char), cs = g.chars ++ (items.chars ++ cs') ∧
      items.values.map Value.tokens = (v :: vs).map Value.tokens ∧ Spells ts cs' := by
  induction vs generalizing v cs with
  | nil =>
    have hfirst : listed .comma ([v].map Value.tokens) ++ .closing :: ts =
        v.tokens ++ .closing :: ts := by simp [listed]
    rw [hfirst] at h
    obtain ⟨g, p, cs', rfl, hp, hrest⟩ := hv _ _ h
    obtain ⟨g', ds, cs'', rfl, hbracket, hbehind⟩ := hrest.head
    cases hbracket
    refine ⟨g, .last p g', cs'', ?_, ?_, hbehind⟩
    · simp [Items.chars]
    · simp [Items.values, hp]
  | cons w vs ih =>
    have hfirst : listed .comma ((v :: w :: vs).map Value.tokens) ++ .closing :: ts =
        v.tokens ++ .comma :: (listed .comma ((w :: vs).map Value.tokens) ++ .closing :: ts) := by
      simp [listed]
    rw [hfirst] at h
    obtain ⟨g, p, cs', rfl, hp, hrest⟩ := hv _ _ h
    obtain ⟨before, ds, cs'', rfl, hcomma, hothers⟩ := hrest.head
    cases hcomma
    obtain ⟨after, others, rest, rfl, hvalues, hbehind⟩ :=
      ih (hvs w List.mem_cons_self) (fun u hu => hvs u (List.mem_cons_of_mem w hu)) hothers
    refine ⟨g, .more p before after others, rest, ?_, ?_, hbehind⟩
    · simp [Items.chars]
    · simp [Items.values, hp, hvalues]

/-- **A text with the tokens of a value begins with a phrase for it.**  By induction on the
    value. -/
theorem phrase (v : Value) : Finds v := by
  induction v using Value.induction with
  | number n =>
    intro ts cs h
    obtain ⟨g, ds, cs', rfl, hword, hrest⟩ := h.head
    cases hword
    exact ⟨g, .number n, cs', by rw [String.toList_ofList]; rfl, rfl, hrest⟩
  | boolean b =>
    intro ts cs h
    obtain ⟨g, ds, cs', rfl, hword, hrest⟩ := h.head
    cases hword
    exact ⟨g, .boolean b, cs', rfl, rfl, hrest⟩
  | string marks =>
    intro ts cs h
    obtain ⟨g, ds, cs', rfl, hquoted, hrest⟩ := h.head
    -- the text may escape other characters than `marks` does
    generalize hvalue : String.ofList (marks.map Mark.char) = value at hquoted
    cases hquoted with
    | quoted marks' =>
      refine ⟨g, .string marks', cs', rfl, ?_, hrest⟩
      rw [Phrase.value, Value.tokens, Value.tokens, hvalue]
  | vector items ih =>
    intro ts cs h
    rw [Value.tokens, Value.allTokens_eq, List.cons_append, List.append_assoc,
      List.singleton_append] at h
    obtain ⟨g, ds, cs', rfl, hopening, hrest⟩ := h.head
    cases hopening
    cases items with
    | nil =>
      obtain ⟨gap, ds, cs'', rfl, hclosing, hbehind⟩ := hrest.head
      cases hclosing
      exact ⟨g, .empty gap, cs'', by simp [Phrase.chars], rfl, hbehind⟩
    | cons v vs =>
      obtain ⟨gap, items, cs'', rfl, hitems, hbehind⟩ :=
        Spells.items (ih v List.mem_cons_self) (fun w hw => ih w (List.mem_cons_of_mem v hw)) hrest
      refine ⟨g, .vector gap items, cs'', by simp [Phrase.chars], ?_, hbehind⟩
      rw [Phrase.value, Value.tokens, Value.tokens, Value.allTokens_eq, Value.allTokens_eq, hitems]

end Spells

/-- **Behind every literal that is read there is a derivation** with the text that it was read
    from. -/
theorem exists_derivation {line : Int} {s : String} {l : Literal} (h : Literal.read? line s = some l) :
    ∃ d : Derivation, d.chars = s.toList := by
  obtain ⟨ts, htokens, hassembled⟩ := Option.bind_eq_some_iff.mp h
  obtain ⟨v, hv, -⟩ := ofTokens?_sound hassembled
  have hspells := tokens?_sound htokens
  rw [← hv, ← List.append_nil v.tokens] at hspells
  obtain ⟨before, p, rest, hs, -, hrest⟩ := Spells.phrase v _ _ hspells
  cases hrest with
  | nil after => exact ⟨⟨before, p, after⟩, hs.symm⟩

end SolidExport.Source
