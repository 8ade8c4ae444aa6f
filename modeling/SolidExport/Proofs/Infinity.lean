/-
  Infinities in documents.

  What is written is well-formed: the names in a document can be read (`named_document`), so its text
  is read back with the texts of all values in their places (`Element.holds_toXml_iff`).  There are no
  texts among them but the version, so an infinity is one of the numbers, and which numbers are
  written so is known.
-/
import SolidExport.Proofs.Element.Format
import SolidExport.Proofs.Element.RoundTrip
import SolidExport.Proofs.Schema.Document

namespace SolidExport

open Outcome (bind_ok)

/-! ## Places in what is read -/

namespace Xml

/-- `x.at? path` — the element that a path of child indexes leads to from `x`. -/
def at? : Xml → List Nat → Option Xml
  | x, [] => some x
  | x, i :: path => (x.children[i]?).bind (·.at? path)

/-- `x.Holds P` — the text of some attribute, of the element `x` or of one below it, is one of
    `P`. -/
def Holds (P : String → Prop) (x : Xml) : Prop :=
  ∃ p y a, x.at? p = some y ∧ a ∈ y.attributes ∧ P a.2

end Xml

namespace Element

variable {precision : Float} {e : Element} {x : Xml}

theorem childrenToXml_ok {cs : List Element} {xs : List Xml}
    (h : childrenToXml precision cs = .ok xs) :
    List.Forall₂ (fun c x => c.toXml precision = .ok x) cs xs := by
  induction cs generalizing xs with
  | nil =>
    rw [childrenToXml] at h
    obtain rfl := Except.ok.inj h
    exact .nil
  | cons c cs ih =>
    rw [childrenToXml] at h
    obtain ⟨front, hfront, h⟩ := bind_ok.mp h
    obtain ⟨back, hback, h⟩ := bind_ok.mp h
    obtain rfl := Except.ok.inj h
    exact .cons hfront (ih hback)

/-- The texts of the attributes and the children of an element, one by one and in the same order. -/
theorem toXml_ok (h : e.toXml precision = .ok x) :
    List.Forall₂ (fun a t => a.2.format precision = .ok t.2) e.attributes x.attributes ∧
      List.Forall₂ (fun c y => c.toXml precision = .ok y) e.children x.children := by
  obtain ⟨tag, attributes, children⟩ := e
  rw [toXml] at h
  obtain ⟨texts, htexts, h⟩ := bind_ok.mp h
  obtain ⟨inner, hinner, h⟩ := bind_ok.mp h
  obtain rfl := Except.ok.inj h
  refine ⟨(Outcome.mapM_ok htexts).imp fun a t hat => ?_, childrenToXml_ok hinner⟩
  obtain ⟨text, htext, hat⟩ := bind_ok.mp hat
  obtain rfl := Except.ok.inj hat
  exact htext

/-- A path leads to the text of the element that it leads to, or to nothing in both. -/
theorem toXml_at? (h : e.toXml precision = .ok x) (p : List Nat) :
    Option.Rel (fun d y => d.toXml precision = .ok y) (e.at? p) (x.at? p) := by
  induction p generalizing e x with
  | nil => exact .some h
  | cons i p ih =>
    have hchildren := (toXml_ok h).2
    show Option.Rel _ ((e.children[i]?).bind (·.at? p)) ((x.children[i]?).bind (·.at? p))
    generalize e.children = cs at hchildren ⊢
    generalize x.children = ys at hchildren ⊢
    induction hchildren generalizing i with
    | nil => exact .none
    | cons hc _ ihrest =>
      cases i with
      | zero => exact ih hc
      | succ i => exact ihrest i

/-- **The texts of an element** are those of the values in it, so a text is found in a document
    exactly if some value is written so. -/
theorem holds_toXml_iff (h : e.toXml precision = .ok x) {P : String → Prop} :
    x.Holds P ↔ ∃ p d a text, e.at? p = some d ∧ a ∈ d.attributes ∧
      a.2.format precision = .ok text ∧ P text := by
  constructor
  · rintro ⟨p, y, t, hy, ht, hP⟩
    have hplace := toXml_at? h p
    rw [hy] at hplace
    cases hd : e.at? p with
    | none => rw [hd] at hplace; exact nomatch hplace
    | some d =>
      rw [hd] at hplace
      cases hplace with
      | some hplace =>
        obtain ⟨a, ha, hformat⟩ := Outcome.exists_of_forall₂ (toXml_ok hplace).1 ht
        exact ⟨p, d, a, t.2, hd, ha, hformat, hP⟩
  · rintro ⟨p, d, a, text, hd, ha, hformat, hP⟩
    have hplace := toXml_at? h p
    rw [hd] at hplace
    cases hy : x.at? p with
    | none => rw [hy] at hplace; exact nomatch hplace
    | some y =>
      rw [hy] at hplace
      cases hplace with
      | some hplace =>
        obtain ⟨t, ht, hformat'⟩ :=
          Outcome.exists_of_forall₂ (List.Forall₂.flip (toXml_ok hplace).1) ha
        obtain rfl := Except.ok.inj (hformat.symm.trans hformat')
        exact ⟨p, y, t, hy, ht, hP⟩

end Element

/-! ## Names in documents -/

namespace Schema

open Element (NamedHere Throughout)

theorem Conforms.named {fields : List (String × Field)} {attributes : List (String × Attribute)}
    (h : Conforms fields attributes) (hnames : fields.all (Xml.isName ·.1) = true) :
    ∀ a ∈ attributes, Xml.isName a.1 = true := by
  intro a ha
  obtain ⟨f, hf, hname, -⟩ := Outcome.exists_of_forall₂ h ha
  rw [hname]
  exact List.all_eq_true.mp hnames f hf

theorem ofParts_named : OfParts NamedHere where
  list := by
    intro e htag hnone
    have hall : ∀ tag ∈ partTags, Xml.isName tag = true := by decide
    refine ⟨hall _ htag, ?_⟩
    rw [hnone]
    exact fun a ha => absurd ha List.not_mem_nil
  leaf htag hattributes _ hnames := by
    have hall : ∀ tag ∈ partTags, Xml.isName tag = true := by decide
    exact ⟨hall _ htag, hattributes.named hnames⟩

theorem all_fields_named (tag : String) : (fields tag).all (Xml.isName ·.1) = true := by
  unfold fields
  split <;> decide

/-- The names in a shape can be read back, those of its parts included. -/
theorem IsShape.named {e : Element} (h : IsShape e) : Throughout NamedHere e := by
  have hpoint : pointFields.all (Xml.isName ·.1) = true := by decide
  have hall : ∀ tag ∈ shapeTags, Xml.isName tag = true := by decide
  refine h.throughout ofParts_named (fun e htag hattributes => ⟨?_, hattributes.named hpoint⟩)
    fun e htag hattributes => ⟨hall _ htag, hattributes.named (all_fields_named _)⟩
  rw [htag]
  decide

/-- The names in a document of one shape can be read back. -/
theorem named_document {union : Element} (h : IsShape union) :
    Throughout NamedHere ⟨"xcsg", [("version", .text "1.0")], [union]⟩ := by
  have hroot : Xml.isName "xcsg" = true := by decide
  refine .mk ⟨hroot, fun a ha => ?_⟩ fun c hc => ?_
  · rw [List.mem_singleton.mp ha]
    decide
  · rw [List.mem_singleton.mp hc]
    exact h.named

end Schema

/-! ## Infinities -/

/-- The texts of numbers that are not finite, as they are written where a number is shown. -/
def nonFiniteTexts : List String := ["Infinity", "-Infinity", "NaN"]

open Double (Overflows)

/-- A number is written as one that is not finite exactly if it overflows at the precision. -/
theorem mem_nonFiniteTexts_iff {precision x : Float} {text : String}
    (h : formatNumber precision x = .ok text) :
    text ∈ nonFiniteTexts ↔ ∃ k, 1 ≤ k ∧ k ≤ 17 ∧ precision = Float.ofNat k ∧ Overflows k x := by
  obtain ⟨hx, k, hdigits, htext⟩ := formatNumber_eq_ok_iff.mp h
  obtain ⟨hone, hmost, hprecision⟩ := precisionDigits?_eq_some_iff.mp hdigits
  obtain ⟨hover, hnot⟩ := numberText_roundSignificant hx hone hmost
  rw [htext] at hover hnot
  constructor
  · intro hmem
    refine ⟨k, hone, hmost, hprecision, ?_⟩
    by_contra hfits
    obtain ⟨y, hread, hfinite⟩ := hnot hfits
    have hall : ∀ t ∈ nonFiniteTexts, (readNumber? t).all (fun y => !y.isFinite) = true := by
      decide
    have hbad := hall text hmem
    rw [hread, Option.all_some, hfinite] at hbad
    exact nomatch hbad
  · rintro ⟨j, hone', hmost', hprecision', hoverflows⟩
    have hj := precisionDigits?_eq_some_iff.mpr ⟨hone', hmost', hprecision'⟩
    obtain rfl := Option.some.inj (hdigits.symm.trans hj)
    rw [hover hoverflows]
    split_ifs <;> decide

namespace Conversion

variable {o : ConvertOptions} {text : String} {output : Output}

/-- The document that a conversion writes is a version and one shape, and its text is that of the
    document. -/
theorem document_of_ok (h : (ofText o text).result = .ok output) :
    ∃ union, output.document = ⟨"xcsg", [("version", .text "1.0")], [union]⟩ ∧
      Schema.IsShape union ∧
      output.document.markup o.precision Element.defaultIndent = .ok output.xml := by
  obtain ⟨statements, root, -, hroot, hemit, hdocument, hmarkup⟩ := ofText_ok h
  obtain ⟨d, -, hchildren, helements, -⟩ := emitRoot_ok hemit
  rw [helements] at hdocument
  exact ⟨_, hdocument, Schema.isShape_of_emitRoot (Node.ofStatements_noNaN hroot) hchildren, hmarkup⟩

/-- The one value of a document that is a text is its version; all others are numbers and truth
    values. -/
theorem text_of_document (h : (ofText o text).result = .ok output) {p : List Nat} {d : Element}
    (hd : output.document.at? p = some d) {a : String × Attribute} (ha : a ∈ d.attributes)
    {value : String} (hvalue : a.2 = .text value) : value = "1.0" := by
  obtain ⟨union, hdocument, hshape, -⟩ := document_of_ok h
  rw [hdocument] at hd
  cases p with
  | nil =>
    obtain rfl := Option.some.inj hd
    rw [List.mem_singleton.mp ha] at hvalue
    exact (Attribute.text.inj hvalue).symm
  | cons i p =>
    cases i with
    | succ i => exact nomatch hd
    | zero => exact absurd hvalue ((hshape.isKnown.at? hd).2 a ha value)

/-- **Where a document holds an infinity.**  Its text can be read, and one of the texts for what is
    not finite is in it exactly if some number of the document overflows at its precision. -/
theorem holds_nonFinite_iff (h : (ofText o text).result = .ok output) :
    ∃ x, Xml.read? output.xml = some x ∧
      (x.Holds (· ∈ nonFiniteTexts) ↔ ∃ k, 1 ≤ k ∧ k ≤ 17 ∧ o.precision = Float.ofNat k ∧
        output.document.HoldsNumber (Overflows k)) := by
  obtain ⟨union, hdocument, hshape, hmarkup⟩ := document_of_ok h
  have hindent : ∀ c ∈ Element.defaultIndent.toList, Text.isBlank c = true :=
    List.all_eq_true.mp (by decide)
  have hnamed : output.document.Throughout Element.NamedHere := by
    rw [hdocument]
    exact Schema.named_document hshape
  obtain ⟨x, hx, hread⟩ := Element.read?_markup hindent hnamed hmarkup
  refine ⟨x, hread, ?_⟩
  rw [Element.holds_toXml_iff hx]
  constructor
  · rintro ⟨p, d, a, value, hd, ha, hformat, hmem⟩
    cases hvalue : a.2 with
    | number y =>
      rw [hvalue] at hformat
      obtain ⟨k, hone, hmost, hprecision, hoverflows⟩ := (mem_nonFiniteTexts_iff hformat).mp hmem
      exact ⟨k, hone, hmost, hprecision, p, d, a, y, hd, ha, hvalue, hoverflows⟩
    | boolean b =>
      rw [hvalue] at hformat
      obtain rfl := Except.ok.inj hformat
      cases b <;> exact absurd hmem (by decide)
    | text t =>
      rw [hvalue] at hformat
      obtain rfl := Except.ok.inj hformat
      rw [text_of_document h hd ha hvalue] at hmem
      exact absurd hmem (by decide)
  · rintro ⟨k, hone, hmost, hprecision, p, d, a, y, hd, ha, hvalue, hoverflows⟩
    obtain ⟨value, hformat⟩ := (Element.markup_ok_iff_writable.mp ⟨_, hmarkup⟩).at? hd a ha
    refine ⟨p, d, a, value, hd, ha, hformat, ?_⟩
    rw [hvalue] at hformat
    exact (mem_nonFiniteTexts_iff hformat).mpr ⟨k, hone, hmost, hprecision, hoverflows⟩

end Conversion

/-- **When an infinity is written.**  At every precision from one to seventeen a finite number has a
    text.  From the bound of the precision on it names an infinity, and below it is read as a finite
    number.  There are doubles from the bound on at nine of the precisions.  A document holds a number
    that is not finite exactly if it holds one from the bound on. -/
theorem infinity_written_iff (k : ℕ) (x : Float) (o : ConvertOptions) (text : String) :
    (1 ≤ k → k ≤ 17 → x.isFinite = true →
      ∃ written, formatNumber (Float.ofNat k) x = .ok written ∧
        (Overflows k x → written = if x < 0.0 then "-Infinity" else "Infinity") ∧
        (¬ Overflows k x → ∃ y, readNumber? written = some y ∧ y.isFinite = true)) ∧
    (1 ≤ k → k ≤ 17 → ((∃ y : Float, y.isFinite = true ∧ Overflows k y) ↔
      k ∈ [1, 2, 3, 4, 5, 10, 11, 15, 16])) ∧
    ∀ output : Output, (Conversion.ofText o text).result = .ok output →
      ∃ xml, Xml.read? output.xml = some xml ∧
        (xml.Holds (· ∈ ["Infinity", "-Infinity", "NaN"]) ↔
          ∃ digits, 1 ≤ digits ∧ digits ≤ 17 ∧ o.precision = Float.ofNat digits ∧
            output.document.HoldsNumber (Overflows digits)) := by
  refine ⟨?_, fun hone hmost => Double.exists_overflows_iff hone hmost, fun output h =>
    Conversion.holds_nonFinite_iff h⟩
  intro hone hmost hx
  have hdigits := precisionDigits?_eq_some_iff.mpr ⟨hone, hmost, rfl⟩
  exact ⟨_, formatNumber_eq_ok_iff.mpr ⟨hx, k, hdigits, rfl⟩, numberText_roundSignificant hx hone hmost⟩

/-- `e.numbers` — the numbers among the values of the attributes of `e` itself. -/
def Element.numbers (e : Element) : List Float :=
  e.attributes.filterMap fun a => match a.2 with
    | .number x => some x
    | _ => none

theorem Element.holdsNumber_of_mem {P : Float → Prop} {e d : Element} {p : List Nat}
    (hd : e.at? p = some d) {x : Float} (hmem : x ∈ d.numbers) (hx : P x) : e.HoldsNumber P := by
  obtain ⟨a, ha, hnumber⟩ := List.mem_filterMap.mp hmem
  cases hvalue : a.2 with
  | number y =>
    rw [hvalue] at hnumber
    obtain rfl := Option.some.inj hnumber
    exact ⟨p, d, a, y, hd, ha, hvalue, hx⟩
  | boolean b => rw [hvalue] at hnumber; cases hnumber
  | text t => rw [hvalue] at hnumber; cases hnumber

/-- A conversion that writes one digit of each number. -/
def roughly : ConvertOptions := { ConvertOptions.standard .rounded with precision := Float.ofNat 1 }

/-- A cube as large as a double can be. -/
def greatestCubeText : String := "cube(size=1.7976931348623157e308);"

theorem infinity_written_greatestCube :
    formatNumber (Float.ofNat 1) Double.greatest = .ok "Infinity" ∧
      ∃ output x, (Conversion.ofText roughly greatestCubeText).result = .ok output ∧
        Xml.read? output.xml = some x ∧ x.Holds (· ∈ ["Infinity", "-Infinity", "NaN"]) := by
  obtain ⟨hformats, -, hdocuments⟩ :=
    infinity_written_iff 1 Double.greatest roughly greatestCubeText
  have hoverflows : Overflows 1 Double.greatest :=
    ⟨_, Double.hasValue_greatest, (Double.overflowBound_le_iff le_rfl (by decide)).mpr (by decide)⟩
  constructor
  · obtain ⟨written, hformat, hwritten, -⟩ := hformats le_rfl (by decide) Double.isFinite_greatest
    have hsign : ¬ Double.greatest < 0.0 :=
      mt (Double.lt_zero_iff Double.ofFloat?_greatest (by decide)).mp (by decide)
    rw [hformat, hwritten hoverflows, if_neg hsign]
  · have hcube : (Conversion.ofText roughly greatestCubeText).result.toOption.map
        (fun output => (output.document.at? [0, 0]).map Element.numbers) =
          some (some [Double.greatest, Double.greatest, Double.greatest]) := by
      decide +kernel
    cases hresult : (Conversion.ofText roughly greatestCubeText).result with
    | error f => rw [hresult] at hcube; cases hcube
    | ok output =>
      rw [hresult] at hcube
      obtain ⟨cube, hat, hnumbers⟩ := Option.map_eq_some_iff.mp (Option.some.inj hcube)
      obtain ⟨x, hread, hholds⟩ := hdocuments output hresult
      have hmem : Double.greatest ∈ cube.numbers := by
        rw [hnumbers]
        exact List.mem_cons_self
      exact ⟨output, x, rfl, hread, hholds.mpr ⟨1, le_rfl, by decide, rfl,
        Element.holdsNumber_of_mem hat hmem hoverflows⟩⟩

end SolidExport
