/-
  When an element can be written as text.

  The one thing that can stop it is a number: an infinity or a NaN has no text, and a precision must
  be a possible one, which is a whole number from one to seventeen (`precisionDigits?_isSome_iff`).
  An element is written exactly when all values in it are (`lines_ok_iff`), so with a possible
  precision exactly when all numbers in it are finite (`markup_ok_iff`).
-/
import SolidExport.Element.Markup
import SolidExport.Proofs.Double.Integer
import SolidExport.Proofs.Outcome
import SolidExport.Proofs.Tree

namespace SolidExport

open Outcome (bind_ok bind_error)

/-! ## Precisions -/

/-- Every whole precision `k` from one to seventeen is a possible one. -/
theorem precisionDigits?_ofNat {k : Nat} (hone : 1 ≤ k) (hmost : k ≤ 17) :
    (precisionDigits? (Float.ofNat k)).isSome = true := by
  have hall : ∀ k < 18, 1 ≤ k → (precisionDigits? (Float.ofNat k)).isSome = true := by
    decide
  exact hall k (by omega) hone

/-- **The possible precisions** are the whole numbers from one to seventeen. -/
theorem precisionDigits?_isSome_iff {precision : Float} :
    (precisionDigits? precision).isSome = true ↔
      ∃ k, 1 ≤ k ∧ k ≤ 17 ∧ precision = Float.ofNat k := by
  constructor
  · intro h
    obtain ⟨k, hk⟩ := Option.isSome_iff_exists.mp h
    obtain ⟨hk, hrange⟩ := Option.filter_eq_some_iff.mp hk
    rw [Bool.and_eq_true, decide_eq_true_eq, decide_eq_true_eq] at hrange
    obtain ⟨hone, hmost⟩ := hrange
    have hall : ∀ k < 18, 1 ≤ k → Double.toNat? (Float.ofNat k) = some k := by
      decide
    have hnat : Double.toNat? (Float.ofNat k) = some k := hall k (by omega) hone
    exact ⟨k, hone, hmost, Double.eq_of_toNat? hk hnat hone (by omega)⟩
  · rintro ⟨k, hone, hmost, rfl⟩
    exact precisionDigits?_ofNat hone hmost

namespace Attribute

/-- `a.Finite` — the value `a` is no number, or a finite one. -/
def Finite : Attribute → Prop
  | .number x => x.isFinite = true
  | _ => True

/-- `a.Writable precision` — the value `a` has a text with `precision` significant digits.  A number
    that is rounded past the doubles has none. -/
def Writable (precision : Float) (a : Attribute) : Prop := ∃ text, a.format precision = .ok text

theorem writable_iff {precision : Float} {a : Attribute} :
    a.Writable precision ↔
      ∀ x, a = .number x → x.isFinite = true ∧ (precisionDigits? precision).isSome = true := by
  cases a with
  | boolean value => exact ⟨fun _ _ h => (nomatch h), fun _ => ⟨_, rfl⟩⟩
  | text value => exact ⟨fun _ _ h => (nomatch h), fun _ => ⟨_, rfl⟩⟩
  | number x =>
    have hformat : format precision (.number x) = formatNumber precision x := rfl
    unfold Writable
    rw [hformat, formatNumber]
    cases hx : x.isFinite with
    | false => exact ⟨fun ⟨_, h⟩ => (nomatch h), fun h => absurd (h x rfl).1 (by rw [hx]; decide)⟩
    | true =>
      cases hp : precisionDigits? precision with
      | none => exact ⟨fun ⟨_, h⟩ => (nomatch h), fun h => nomatch (h x rfl).2⟩
      | some digits =>
        refine ⟨fun _ y hy => ?_, fun _ => ⟨_, rfl⟩⟩
        injection hy with hy
        exact ⟨hy ▸ hx, rfl⟩

theorem Writable.finite {precision : Float} {a : Attribute} (h : a.Writable precision) :
    a.Finite := by
  cases a with
  | number x => exact (writable_iff.mp h x rfl).1
  | boolean value => trivial
  | text value => trivial

theorem Finite.writable {precision : Float} (hp : (precisionDigits? precision).isSome = true)
    {a : Attribute} (h : a.Finite) : a.Writable precision := by
  rw [writable_iff]
  rintro x rfl
  exact ⟨h, hp⟩

end Attribute

namespace Element

/-- `FiniteHere e` — all numbers of the element `e` itself are finite; those of its children are
    their own affair. -/
def FiniteHere (e : Element) : Prop := ∀ a ∈ e.attributes, a.2.Finite

/-- `WritableHere precision e` — all values of the element `e` itself have texts with `precision`
    significant digits. -/
def WritableHere (precision : Float) (e : Element) : Prop :=
  ∀ a ∈ e.attributes, a.2.Writable precision

variable {precision : Float} {indent : String}

/-! ## Attributes -/

theorem attributesMarkup_ok_iff {attributes : List (String × Attribute)} :
    (∃ text, attributesMarkup precision attributes = .ok text) ↔
      ∀ a ∈ attributes, a.2.Writable precision := by
  constructor
  · rintro ⟨text, h⟩
    obtain ⟨texts, htexts, -⟩ := bind_ok.mp h
    have hall := Outcome.mapM_ok htexts
    clear h htexts
    induction hall with
    | nil => exact fun a ha => absurd ha List.not_mem_nil
    | cons hhead _ ih =>
      intro a ha
      rcases List.mem_cons.mp ha with rfl | ha
      · obtain ⟨text, hformat, -⟩ := bind_ok.mp hhead
        exact ⟨text, hformat⟩
      · exact ih a ha
  · intro h
    suffices hmap : ∃ texts, attributes.mapM (attributeMarkup precision) = .ok texts by
      obtain ⟨texts, htexts⟩ := hmap
      exact ⟨String.join texts, by rw [attributesMarkup, htexts]; rfl⟩
    induction attributes with
    | nil => exact ⟨[], rfl⟩
    | cons a attributes ih =>
      obtain ⟨text, htext⟩ := h a List.mem_cons_self
      obtain ⟨texts, htexts⟩ := ih fun b hb => h b (List.mem_cons_of_mem _ hb)
      rw [List.mapM_cons, attributeMarkup, htext, htexts]
      exact ⟨_, rfl⟩

/-! ## Lines -/

theorem childrenLines_ok_iff {depth : Nat} {cs : List Element} :
    (∃ ls, childrenLines precision indent depth cs = .ok ls) ↔
      ∀ c ∈ cs, ∃ ls, c.lines precision indent depth = .ok ls := by
  induction cs with
  | nil => exact ⟨fun _ c hc => absurd hc List.not_mem_nil, fun _ => ⟨[], by rw [childrenLines]; rfl⟩⟩
  | cons c cs ih =>
    rw [List.forall_mem_cons, ← ih]
    constructor
    · rintro ⟨ls, h⟩
      rw [childrenLines] at h
      obtain ⟨front, hfront, h⟩ := bind_ok.mp h
      obtain ⟨back, hback, -⟩ := bind_ok.mp h
      exact ⟨⟨front, hfront⟩, back, hback⟩
    · rintro ⟨⟨front, hfront⟩, back, hback⟩
      refine ⟨front ++ back, ?_⟩
      rw [childrenLines, hfront]
      show (childrenLines precision indent depth cs >>= fun back => pure (front ++ back)) = _
      rw [hback]
      rfl

/-- **An element is written exactly when its values are**, those of all elements in it included.
    Neither the margin nor the depth matters. -/
theorem lines_ok_iff {e : Element} {depth : Nat} :
    (∃ ls, e.lines precision indent depth = .ok ls) ↔ e.Throughout (WritableHere precision) := by
  induction e using Element.induction generalizing depth with
  | step e ih =>
    obtain ⟨tag, attributes, children⟩ := e
    constructor
    · rintro ⟨ls, h⟩
      rw [lines] at h
      obtain ⟨text, htext, h⟩ := bind_ok.mp h
      refine .mk (attributesMarkup_ok_iff.mp ⟨text, htext⟩) ?_
      cases children with
      | nil => exact fun c hc => absurd hc List.not_mem_nil
      | cons c cs =>
        obtain ⟨inner, hinner, -⟩ := bind_ok.mp h
        exact fun d hd => (ih d hd).mp (childrenLines_ok_iff.mp ⟨inner, hinner⟩ d hd)
    · intro h
      obtain ⟨text, htext⟩ := attributesMarkup_ok_iff.mpr h.here
      rw [lines, htext]
      cases children with
      | nil => exact ⟨_, rfl⟩
      | cons c cs =>
        have hinside : ∀ d ∈ c :: cs, ∃ ls, d.lines precision indent (depth + 1) = .ok ls :=
          fun d hd => (ih d hd).mpr (h.inside d hd)
        obtain ⟨inner, hinner⟩ := childrenLines_ok_iff.mpr hinside
        show ∃ ls, (childrenLines precision indent (depth + 1) (c :: cs) >>= fun inner => pure _) = .ok ls
        rw [hinner]
        exact ⟨_, rfl⟩

theorem markup_ok_iff_writable {e : Element} :
    (∃ xml, e.markup precision indent = .ok xml) ↔ e.Throughout (WritableHere precision) := by
  rw [← lines_ok_iff]
  constructor
  · rintro ⟨xml, h⟩
    obtain ⟨body, hbody, -⟩ := bind_ok.mp h
    exact ⟨body, hbody⟩
  · rintro ⟨body, hbody⟩
    exact ⟨_, by rw [markup, hbody]; rfl⟩

/-- A document that is written has finite numbers only, whatever the precision. -/
theorem markup_ok {e : Element} {xml : String} (h : e.markup precision indent = .ok xml) :
    e.Throughout FiniteHere :=
  (markup_ok_iff_writable.mp ⟨xml, h⟩).mono fun _ hd a ha => (hd a ha).finite

/-- **A document is written exactly when its numbers are finite**, if the precision is a possible
    one. -/
theorem markup_ok_iff (hp : (precisionDigits? precision).isSome = true) {e : Element} :
    (∃ xml, e.markup precision indent = .ok xml) ↔ e.Throughout FiniteHere := by
  rw [markup_ok_iff_writable]
  exact ⟨Throughout.mono fun _ hd a ha => (hd a ha).finite,
    Throughout.mono fun _ hd a ha => (hd a ha).writable hp⟩

/-! ## What stops a document -/

/-- `IsNonFinite r` — the refusal `r` is that of a number that is not finite. -/
def IsNonFinite (r : RangeFault) : Prop := ∃ x, r = .nonFinite x ∧ x.isFinite = false

theorem format_error (hp : (precisionDigits? precision).isSome = true) {a : Attribute}
    {r : RangeFault} (h : a.format precision = .error r) : IsNonFinite r := by
  cases a with
  | number x =>
    cases hx : x.isFinite with
    | true =>
      have hfinite : Attribute.Finite (.number x) := hx
      obtain ⟨text, htext⟩ := hfinite.writable hp
      rw [htext] at h
      exact nomatch h
    | false =>
      change formatNumber precision x = .error r at h
      unfold formatNumber at h
      rw [hx] at h
      injection h with h
      exact ⟨x, h.symm, hx⟩
  | boolean value => exact nomatch h
  | text value => exact nomatch h

theorem attributesMarkup_error (hp : (precisionDigits? precision).isSome = true)
    {attributes : List (String × Attribute)} {r : RangeFault}
    (h : attributesMarkup precision attributes = .error r) : IsNonFinite r := by
  rcases bind_error h with hmap | ⟨_, -, hpure⟩
  · obtain ⟨a, -, ha⟩ := Outcome.mapM_error hmap
    rcases bind_error ha with hformat | ⟨_, -, hpure⟩
    · exact format_error hp hformat
    · exact nomatch hpure
  · exact nomatch hpure

theorem childrenLines_error {depth : Nat} {cs : List Element} {r : RangeFault}
    (h : childrenLines precision indent depth cs = .error r) :
    ∃ c ∈ cs, c.lines precision indent depth = .error r := by
  induction cs with
  | nil =>
    rw [childrenLines] at h
    exact nomatch h
  | cons c cs ih =>
    rw [childrenLines] at h
    rcases bind_error h with hc | ⟨_, -, hrest⟩
    · exact ⟨c, List.mem_cons_self, hc⟩
    · rcases bind_error hrest with hcs | ⟨_, -, hpure⟩
      · obtain ⟨d, hd, herror⟩ := ih hcs
        exact ⟨d, List.mem_cons_of_mem c hd, herror⟩
      · exact nomatch hpure

theorem lines_error (hp : (precisionDigits? precision).isSome = true) {e : Element} {depth : Nat}
    {r : RangeFault} (h : e.lines precision indent depth = .error r) : IsNonFinite r := by
  induction e using Element.induction generalizing depth with
  | step e ih =>
    obtain ⟨tag, attributes, children⟩ := e
    rw [lines] at h
    rcases bind_error h with hattributes | ⟨text, -, hrest⟩
    · exact attributesMarkup_error hp hattributes
    · cases children with
      | nil => exact nomatch hrest
      | cons c cs =>
        rcases bind_error hrest with hchildren | ⟨_, -, hpure⟩
        · obtain ⟨d, hd, herror⟩ := childrenLines_error hchildren
          exact ih d hd herror
        · exact nomatch hpure

/-- With a possible precision only a number that is not finite stops a document from being
    written. -/
theorem markup_error (hp : (precisionDigits? precision).isSome = true) {e : Element}
    {r : RangeFault} (h : e.markup precision indent = .error r) : IsNonFinite r := by
  rcases bind_error h with hlines | ⟨_, -, hpure⟩
  · exact lines_error hp hlines
  · exact nomatch hpure

/-! ## More children -/

theorem finite_new (tag : String) : (Element.new tag).Throughout FiniteHere :=
  (Throughout.iff_here rfl).mpr fun _ ha => absurd ha List.not_mem_nil

/-- Numbers are finite in an element with more children exactly if they are in all of them. -/
theorem finite_append {e : Element} {es : List Element} :
    (e.append es).Throughout FiniteHere ↔
      e.Throughout FiniteHere ∧ ∀ c ∈ es, c.Throughout FiniteHere := by
  constructor
  · intro h
    refine ⟨.mk h.here fun c hc => ?_, fun c hc => ?_⟩
    · exact h.inside c (List.mem_append_left es hc)
    · exact h.inside c (List.mem_append_right e.children hc)
  · rintro ⟨h, hes⟩
    refine .mk h.here fun c hc => ?_
    rcases List.mem_append.mp hc with hc | hc
    · exact h.inside c hc
    · exact hes c hc

end Element

end SolidExport
