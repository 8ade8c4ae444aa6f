/-
  The text of a literal without strings is its canonical form.

  A literal keeps its numbers as they were written, and a vector is written without white space.  So
  the text of a literal that holds no string is the text it was read from, less the white space
  (`text_canonical`), and is read as the same literal again.

  With a string in it neither holds: its text leaves the quotes and the backslashes out.
-/
import SolidExport.Proofs.Literal.Sound

namespace SolidExport

namespace Literal

mutual

/-- `holdsString v` — whether the literal `v` is a string or holds one, at whatever depth.  White
    space in a string is kept. -/
def holdsString : Literal → Bool
  | .number .. | .boolean .. => false
  | .string .. => true
  | .vector _ items => anyHoldsString items

def anyHoldsString : List Literal → Bool
  | [] => false
  | v :: vs => v.holdsString || anyHoldsString vs

end

theorem anyHoldsString_eq (vs : List Literal) : anyHoldsString vs = vs.any holdsString := by
  induction vs with
  | nil => rfl
  | cons v vs ih => rw [anyHoldsString, ih, List.any_cons]

theorem texts_eq (vs : List Literal) : texts vs = vs.map text := by
  induction vs with
  | nil => rfl
  | cons v vs ih => rw [texts, ih, List.map_cons]

end Literal

namespace Source

/-! ## The text of a value -/

/-- The library's row of texts with commas between them is `listed`, which the grammar is written
    with. -/
theorem intercalate_comma (ts : List (List Char)) : [','].intercalate ts = listed ',' ts := by
  induction ts with
  | nil => rfl
  | cons t ts ih =>
    cases ts with
    | nil => simp [listed]
    | cons u us =>
      rw [List.intercalate_cons_cons, ih]
      simp [listed]

namespace Value

theorem holdsString_vector {line : Int} {items : List Value}
    (h : ((vector items).literal line).holdsString = false) :
    ∀ v ∈ items, (v.literal line).holdsString = false := by
  rw [literal, Literal.holdsString, Literal.anyHoldsString_eq, literals_eq] at h
  intro v hv
  have hall := List.any_eq_false.mp h _ (List.mem_map_of_mem hv)
  exact Bool.eq_false_iff.mpr hall

/-- **Without strings a literal has the text of its value**, as the grammar writes it.  A string
    would be shown without its quotes. -/
theorem text_literal {line : Int} (v : Value) (h : (v.literal line).holdsString = false) :
    (v.literal line).text.toList = v.chars := by
  induction v using Value.induction with
  | number n => exact String.toList_ofList
  | boolean b => rfl
  | string marks => exact nomatch h
  | vector items ih =>
    have hitems : (items.map (literal line)).map (String.toList ∘ Literal.text)
        = items.map chars := by
      rw [List.map_map]
      exact List.map_congr_left fun v hv => ih v hv (holdsString_vector h v hv)
    rw [literal, Literal.text, Literal.texts_eq, literals_eq, chars, allChars_eq,
      String.toList_append, String.toList_append, String.toList_intercalate, List.map_map, hitems]
    show ['['] ++ [','].intercalate (items.map chars) ++ [']'] = _
    rw [intercalate_comma]
    rfl

/-- A character of a word is no white space. -/
theorem solid_of_isWord {cs : List Char} (hcs : IsWord cs) : ∀ c ∈ cs, (!Text.isBlank c) = true := by
  intro c hc
  rw [isBlank_of_isOrdinary (hcs c hc)]
  rfl

/-- **Without strings there is no white space in the text of a value**, at whatever depth. -/
theorem solid_chars {line : Int} (v : Value) (h : (v.literal line).holdsString = false) :
    ∀ c ∈ v.chars, (!Text.isBlank c) = true := by
  have hclosed : Closed fun cs => ∀ c ∈ cs, (!Text.isBlank c) = true :=
    ⟨nofun, fun hc hd c hmem => (List.mem_append.mp hmem).elim (hc c) (hd c)⟩
  have hmark : ∀ d : Char, Text.isBlank d = false → ∀ c ∈ [d], (!Text.isBlank c) = true := by
    intro d hd c hc
    rw [List.mem_singleton.mp hc, hd]
    rfl
  induction v using Value.induction with
  | number n => exact solid_of_isWord n.isWord_chars
  | boolean b => exact solid_of_isWord (isWord_booleanText b)
  | string marks => exact nomatch h
  | vector items ih =>
    have hitems : ∀ c ∈ listed ',' (items.map chars), (!Text.isBlank c) = true := by
      refine hclosed.listed (hmark ',' (by decide)) fun t ht => ?_
      obtain ⟨v, hv, rfl⟩ := List.mem_map.mp ht
      exact ih v hv (holdsString_vector h v hv)
    rw [chars, allChars_eq]
    exact hclosed.append (hmark '[' (by decide)) (hclosed.append hitems (hmark ']' (by decide)))

end Value

/-! ## Taking the white space away -/

/-- `solids cs` — the characters of the text `cs` that are no white space. -/
def solids (cs : List Char) : List Char := cs.filter (!Text.isBlank ·)

theorem solids_append (cs ds : List Char) : solids (cs ++ ds) = solids cs ++ solids ds :=
  List.filter_append cs ds

theorem solids_gap (g : Gap) : solids g.chars = [] := by
  refine List.filter_eq_nil_iff.mpr fun c hc => ?_
  rw [g.blank c hc]
  exact Bool.false_ne_true

theorem solids_mark {c : Char} (hc : Text.isBlank c = false) (cs : List Char) :
    solids (c :: cs) = c :: solids cs :=
  List.filter_cons_of_pos (by rw [hc]; rfl)

mutual

/-- **Without its white space a phrase is its value**, if it has no strings: every gap is gone, and
    all else is left. -/
theorem Phrase.solids_chars {line : Int} : ∀ p : Phrase, (p.value.literal line).holdsString = false →
    solids p.chars = p.value.chars
  | .number n, h => List.filter_eq_self.mpr ((Value.number n).solid_chars h)
  | .boolean b, h => List.filter_eq_self.mpr ((Value.boolean b).solid_chars h)
  | .string marks, h => nomatch h
  | .empty gap, _ => by
    rw [Phrase.chars, solids_mark (by decide), solids_append, solids_gap]
    rfl
  | .vector gap items, h => by
    rw [Phrase.chars, solids_mark (by decide), solids_append, solids_gap, List.nil_append,
      items.solids_chars (Value.holdsString_vector h), Phrase.value, Value.chars, Value.allChars_eq]

/-- The items of a vector, up to the bracket behind them, are without their white space the texts of
    their values with commas between them.  This is the step over a vector in
    `Phrase.solids_chars`. -/
theorem Items.solids_chars {line : Int} : ∀ items : Items,
    (∀ v ∈ items.values, (v.literal line).holdsString = false) →
    solids items.chars = listed ',' (items.values.map Value.chars) ++ [']']
  | .last item gap, h => by
    rw [Items.chars, solids_append, solids_append, solids_gap,
      item.solids_chars (h _ List.mem_cons_self)]
    simp [Items.values, listed, solids, show Text.isBlank ']' = false by decide]
  | .more item before after others, h => by
    obtain ⟨v, vs, hvs⟩ := List.exists_cons_of_ne_nil others.values_ne_nil
    rw [Items.chars, solids_append, solids_append, solids_gap, solids_mark (by decide),
      solids_append, solids_gap, item.solids_chars (h _ List.mem_cons_self),
      others.solids_chars fun w hw => h w (List.mem_cons_of_mem _ hw)]
    simp [Items.values, hvs, listed]

end

theorem Derivation.solids_chars {line : Int} (d : Derivation)
    (h : (d.literal line).holdsString = false) : solids d.chars = d.phrase.value.chars := by
  rw [Derivation.chars, solids_append, solids_append, solids_gap, solids_gap, List.append_nil,
    List.nil_append, d.phrase.solids_chars h]

/-! ## The canonical form -/

/-- **The text of a literal without strings is canonical.**  It is read as the same literal on the same
    line, it has no white space, and it is the text that the literal was read from without the white
    space. -/
theorem text_canonical {line : Int} {s : String} {v : Literal} (h : Literal.read? line s = some v)
    (hv : v.holdsString = false) :
    Literal.read? line v.text = some v ∧ (∀ c ∈ v.text.toList, Text.isBlank c = false) ∧
      v.text = String.ofList (s.toList.filter (!Text.isBlank ·)) := by
  obtain ⟨d, hd⟩ := exists_derivation h
  obtain rfl : d.literal line = v := by
    have hread := d.read?_chars line
    rw [hd, String.ofList_toList, h] at hread
    exact (Option.some.inj hread).symm
  have htext : (d.literal line).text.toList = d.phrase.value.chars := d.phrase.value.text_literal hv
  refine ⟨?_, fun c hc => ?_, ?_⟩
  · rw [← String.ofList_toList (s := (d.literal line).text), htext]
    exact d.phrase.value.read?_chars line
  · rw [htext] at hc
    simpa using d.phrase.value.solid_chars hv c hc
  · rw [← hd, ← String.ofList_toList (s := (d.literal line).text), htext]
    exact congrArg String.ofList (d.solids_chars hv).symm

/-- A literal with nested vectors, an empty one, a sign, a bare and a trailing point, an exponent,
    and white space of several kinds. -/
def spacedLiteral : String := " [ [+1. ,\t.5E-3], [ ],\n true ]"

theorem text_canonical_spaced :
    ∃ v, Literal.read? 7 spacedLiteral = some v ∧ v.holdsString = false ∧
      v.text = "[[+1.,.5E-3],[],true]" ∧ Literal.read? 7 v.text = some v := by
  have hread : (Literal.read? 7 spacedLiteral).map Literal.holdsString = some false := by
    decide +kernel
  obtain ⟨v, hv, hfree⟩ := Option.map_eq_some_iff.mp hread
  obtain ⟨hagain, -, htext⟩ := text_canonical hv hfree
  exact ⟨v, hv, hfree, htext, hagain⟩

end Source

end SolidExport
