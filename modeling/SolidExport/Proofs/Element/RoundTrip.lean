/-
  Reading back what was written.

  `Element.toXml` is what a text can show of an element: the same tags, children and attribute names,
  and the texts of the values.  Read character by character, the markup of an element takes the reader
  from one place between tags to the next, with that element added (`run_lines`).  The step for a value
  is that of one character: an escape is read as the character it stands for (`run_escapeChar`).
-/
import SolidExport.Proofs.Element.Markup
import SolidExport.Proofs.Element.Xml

namespace SolidExport

open Outcome (bind_ok)

/-! ## What a text shows -/

namespace Element

/-- `attributeText precision a` — the name of the attribute `a` and the text of its value with so
    many digits. -/
def attributeText (precision : Float) (a : String × Attribute) :
    Except RangeFault (String × String) := do
  return (a.1, ← a.2.format precision)

mutual

/-- `toXml precision e` — the element `e` with the texts of its values, which is what is read back
    from its markup. -/
def toXml (precision : Float) : Element → Except RangeFault Xml
  | ⟨tag, attributes, children⟩ => do
    let texts ← attributes.mapM (attributeText precision)
    let inner ← childrenToXml precision children
    return ⟨tag, texts, inner⟩

/-- `childrenToXml precision es` — the elements `es` with the texts of their values, in order. -/
def childrenToXml (precision : Float) : List Element → Except RangeFault (List Xml)
  | [] => return []
  | c :: cs => do
    let front ← c.toXml precision
    let back ← childrenToXml precision cs
    return front :: back

end

/-- `NamedHere e` — the tag of the element `e` itself and the names of its attributes can be
    read. -/
def NamedHere (e : Element) : Prop :=
  Xml.isName e.tag = true ∧ ∀ a ∈ e.attributes, Xml.isName a.1 = true

end Element

namespace Xml

theorem isName_iff {s : String} :
    isName s = true ↔ s.toList ≠ [] ∧ ∀ c ∈ s.toList, isNameChar c = true := by
  unfold isName
  rw [Bool.and_eq_true, List.all_eq_true, Bool.not_eq_true', List.isEmpty_eq_false_iff]

namespace Reader

variable {r : Reader} {x : Xml} {name text : List Char}

/-! ## Runs -/

@[simp]
theorem run_nil (r : Reader) : r.run [] = some r := rfl

@[simp]
theorem run_cons (r : Reader) (c : Char) (cs : List Char) :
    r.run (c :: cs) = (r.step c).bind (·.run cs) := rfl

@[simp]
theorem run_append (r : Reader) (cs ds : List Char) :
    r.run (cs ++ ds) = (r.run cs).bind (·.run ds) := by
  unfold run
  rw [List.foldlM_append]
  rfl

/-- A `place` that takes up one character of the kind `p` takes up a whole text of them.  Names,
    values and white space are all read so. -/
theorem run_collect {p : Char → Bool} (place : List Char → Place)
    (hstep : ∀ acc c, p c = true → (r.go (place acc)).step c = some (r.go (place (acc ++ [c]))))
    (acc : List Char) {cs : List Char} (hcs : ∀ c ∈ cs, p c = true) :
    (r.go (place acc)).run cs = some (r.go (place (acc ++ cs))) := by
  induction cs generalizing acc with
  | nil => rw [run_nil, List.append_nil]
  | cons c cs ih =>
    have hrest := ih (acc ++ [c]) fun d hd => hcs d (List.mem_cons_of_mem c hd)
    rw [run_cons, hstep acc c (hcs c List.mem_cons_self), Option.bind_some, hrest,
      List.append_assoc, List.singleton_append]

/-- White space between tags is skipped, however much of it there is. -/
theorem run_blank (r : Reader) {cs : List Char} (hcs : ∀ c ∈ cs, Text.isBlank c = true) :
    (r.go .between).run cs = some (r.go .between) := by
  refine run_collect (fun _ => .between) (fun _ c hc => ?_) [] hcs
  have hne : c ≠ '<' := by
    rintro rfl
    exact absurd hc (by decide)
  simp [step, go, hne, hc]

/-! ## Names -/

theorem run_tag (r : Reader) {name : String} (h : isName name = true) :
    (r.go .bracket).run name.toList = some (r.go (.tag name.toList)) := by
  obtain ⟨hne, hall⟩ := isName_iff.mp h
  obtain ⟨c, cs, hcs⟩ := List.exists_cons_of_ne_nil hne
  rw [hcs] at hall ⊢
  have hc : isNameChar c = true := hall c List.mem_cons_self
  have hslash : c ≠ '/' := by
    rintro rfl
    exact absurd hc (by decide)
  have hquestion : c ≠ '?' := by
    rintro rfl
    exact absurd hc (by decide)
  have hfirst : (r.go .bracket).step c = some (r.go (.tag [c])) := by
    simp [step, go, hslash, hquestion, hc]
  rw [run_cons, hfirst, Option.bind_some]
  exact run_collect .tag (fun acc d hd => by simp [step, go, hd]) [c]
    fun d hd => hall d (List.mem_cons_of_mem c hd)

theorem run_key (r : Reader) (x : Xml) {name : String} (h : isName name = true) :
    (r.go (.gap x)).run name.toList = some (r.go (.key x name.toList)) := by
  obtain ⟨hne, hall⟩ := isName_iff.mp h
  obtain ⟨c, cs, hcs⟩ := List.exists_cons_of_ne_nil hne
  rw [hcs] at hall ⊢
  have hfirst : (r.go (.gap x)).step c = some (r.go (.key x [c])) := by
    simp [step, go, hall c List.mem_cons_self]
  rw [run_cons, hfirst, Option.bind_some]
  exact run_collect (.key x) (fun acc d hd => by simp [step, go, hd]) [c]
    fun d hd => hall d (List.mem_cons_of_mem c hd)

theorem run_ending (r : Reader) {name : String} (h : isName name = true) :
    (r.go (.ending [])).run name.toList = some (r.go (.ending name.toList)) :=
  run_collect .ending (fun acc d hd => by simp [step, go, hd]) [] (isName_iff.mp h).2

/-- Behind its name a start tag goes on as behind a value, so what ends the name is read only
    once. -/
theorem run_tag_head (r : Reader) (name : String) {c : Char} (hc : isNameChar c = false)
    (cs : List Char) :
    (r.go (.tag name.toList)).run (c :: cs) = (r.go (.head ⟨name, [], []⟩)).run (c :: cs) := by
  have hstep : (r.go (.tag name.toList)).step c = (r.go (.head ⟨name, [], []⟩)).step c := by
    simp [step, go, head, hc]
  rw [run_cons, run_cons, hstep]

/-! ## Values -/

/-- **An escape is read as the character it stands for**, and any other character as itself.  No
    escape is taken for another, since each ends in a semicolon. -/
theorem run_escapeChar (r : Reader) (x : Xml) (name text : List Char) (c : Char) :
    (r.go (.value x name text)).run (escapeChar c) = some (r.go (.value x name (text ++ [c]))) := by
  unfold escapeChar
  split
  case h_6 hlt hgt hamp hquot hapos =>
    have hquot : c ≠ '"' := hquot
    have hamp : c ≠ '&' := hamp
    have hlt : c ≠ '<' := hlt
    simp [step, go, hquot, hamp, hlt]
  all_goals rfl

theorem run_escape (r : Reader) (x : Xml) (name text cs : List Char) :
    (r.go (.value x name text)).run (cs.flatMap escapeChar)
      = some (r.go (.value x name (text ++ cs))) := by
  induction cs generalizing text with
  | nil => rw [List.flatMap_nil, run_nil, List.append_nil]
  | cons c cs ih =>
    rw [List.flatMap_cons, run_append, run_escapeChar, Option.bind_some, ih, List.append_assoc,
      List.singleton_append]

/-! ## Start tags -/

section

variable {precision : Float} {attributes : List (String × Attribute)}

open Element (attributeMarkup attributesMarkup attributeText)

theorem attributeMarkup_ok {a : String × Attribute} {markup : String}
    (h : attributeMarkup precision a = .ok markup) :
    ∃ text, a.2.format precision = .ok text ∧
      markup.toList = ' ' :: (a.1.toList ++ '=' :: '"' :: (text.toList.flatMap escapeChar ++ ['"'])) := by
  obtain ⟨text, htext, h⟩ := bind_ok.mp h
  refine ⟨text, htext, ?_⟩
  rw [← Except.ok.inj h]
  simp [escape]

/-- The attributes of a start tag are read in the order in which they are written, with the texts
    that their values had before the escapes. -/
theorem run_attributes (hnames : ∀ a ∈ attributes, isName a.1 = true) {markups : List String}
    (h : attributes.mapM (attributeMarkup precision) = .ok markups) :
    ∃ texts, attributes.mapM (attributeText precision) = .ok texts ∧
      ∀ (r : Reader) (x : Xml), (r.go (.head x)).run (String.join markups).toList
        = some (r.go (.head { x with attributes := x.attributes ++ texts })) := by
  induction attributes generalizing markups with
  | nil =>
    rw [← Except.ok.inj h]
    refine ⟨[], rfl, fun r x => ?_⟩
    obtain ⟨tag, attributes, children⟩ := x
    simp
  | cons a attributes ih =>
    rw [List.mapM_cons] at h
    obtain ⟨markup, hmarkup, h⟩ := bind_ok.mp h
    obtain ⟨rest, hrest, h⟩ := bind_ok.mp h
    obtain ⟨text, htext, hchars⟩ := attributeMarkup_ok hmarkup
    obtain ⟨texts, htexts, hrun⟩ := ih (fun b hb => hnames b (List.mem_cons_of_mem a hb)) hrest
    refine ⟨(a.1, text) :: texts, ?_, fun r x => ?_⟩
    · rw [List.mapM_cons, attributeText, htext, htexts]
      rfl
    · have hspace : (r.go (.head x)).step ' ' = some (r.go (.gap x)) := rfl
      have hequals : (r.go (.key x a.1.toList)).step '=' = some (r.go (.equals x a.1.toList)) := rfl
      have hopen : (r.go (.equals x a.1.toList)).step '"' = some (r.go (.value x a.1.toList [])) := rfl
      have hclose : (r.go (.value x a.1.toList text.toList)).step '"'
          = some (r.go (.head (x.push a.1 text))) := by
        simp [step, go]
      have hone : (r.go (.head x)).run markup.toList = some (r.go (.head (x.push a.1 text))) := by
        rw [hchars, run_cons, hspace, Option.bind_some, run_append,
          run_key r x (hnames a List.mem_cons_self), Option.bind_some, run_cons, hequals,
          Option.bind_some, run_cons, hopen, Option.bind_some, run_append, run_escape,
          Option.bind_some, List.nil_append, run_cons, hclose, Option.bind_some, run_nil]
      rw [← Except.ok.inj h, String.join_cons, String.toList_append, run_append, hone,
        Option.bind_some, hrun]
      simp [push]

/-- **A start tag is read** up to the character `c` that ends it, with its name and its
    attributes. -/
theorem run_start {tag markup : String} (htag : isName tag = true)
    (hnames : ∀ a ∈ attributes, isName a.1 = true)
    (h : attributesMarkup precision attributes = .ok markup) :
    ∃ texts, attributes.mapM (attributeText precision) = .ok texts ∧
      ∀ (r : Reader) (c : Char) (rest : List Char), isNameChar c = false →
        (r.go .bracket).run (tag.toList ++ (markup.toList ++ c :: rest))
          = (r.go (.head ⟨tag, texts, []⟩)).run (c :: rest) := by
  obtain ⟨markups, hmarkups, h⟩ := bind_ok.mp h
  obtain ⟨texts, htexts, hrun⟩ := run_attributes hnames hmarkups
  refine ⟨texts, htexts, fun r c rest hc => ?_⟩
  -- behind the name stands a space, or the end of the tag
  have hnext : ∃ d ds, markup.toList ++ c :: rest = d :: ds ∧ isNameChar d = false := by
    rw [← Except.ok.inj h]
    cases attributes with
    | nil =>
      rw [← Except.ok.inj hmarkups]
      exact ⟨c, rest, rfl, hc⟩
    | cons a attributes =>
      rw [List.mapM_cons] at hmarkups
      obtain ⟨first, hfirst, hmarkups⟩ := bind_ok.mp hmarkups
      obtain ⟨others, -, hmarkups⟩ := bind_ok.mp hmarkups
      obtain ⟨text, -, hchars⟩ := attributeMarkup_ok hfirst
      rw [← Except.ok.inj hmarkups, String.join_cons, String.toList_append, hchars]
      exact ⟨' ', _, rfl, by decide⟩
  obtain ⟨d, ds, hd, hname⟩ := hnext
  rw [run_append, run_tag r htag, Option.bind_some, hd, run_tag_head r tag hname ds, ← hd, run_append,
    ← Except.ok.inj h, hrun, Option.bind_some]
  rfl

end

/-! ## Elements -/

/-- `r.addAll xs` — the reader `r` between tags, behind the elements `xs` in a row. -/
def addAll (r : Reader) (xs : List Xml) : Reader := xs.foldl add (r.go .between)

theorem add_go (r : Reader) (p : Place) (x : Xml) : (r.go p).add x = r.add x := rfl

theorem go_add (r : Reader) (x : Xml) : (r.add x).go .between = r.add x := by
  unfold add
  split
  · rfl
  · rfl

theorem addAll_cons (r : Reader) (x : Xml) (xs : List Xml) :
    r.addAll (x :: xs) = (r.add x).addAll xs := by
  unfold addAll
  rw [List.foldl_cons, add_go, go_add]

/-- Elements that are read in an open one become its children, behind those that it has. -/
theorem addAll_open (around roots : List Xml) (x : Xml) (xs : List Xml) :
    addAll ⟨.between, x :: around, roots⟩ xs
      = ⟨.between, { x with children := x.children ++ xs } :: around, roots⟩ := by
  induction xs generalizing x with
  | nil =>
    obtain ⟨tag, attributes, children⟩ := x
    rw [List.append_nil]
    rfl
  | cons y ys ih =>
    rw [addAll_cons]
    show addAll ⟨.between, { x with children := x.children ++ [y] } :: around, roots⟩ ys = _
    rw [ih, List.append_assoc, List.singleton_append]

end Reader

/-- `page ls` — the characters of some lines, each with its line end. -/
def page (ls : List String) : List Char := ls.flatMap fun l => l.toList ++ ['\n']

theorem toList_join_lines (ls : List String) :
    (String.join (ls.map (· ++ "\n"))).toList = page ls := by
  rw [String.toList_join, List.flatMap_map]
  simp [page]

theorem page_append (ls ms : List String) : page (ls ++ ms) = page ls ++ page ms :=
  List.flatMap_append

theorem blank_margin {indent : String} (h : ∀ c ∈ indent.toList, Text.isBlank c = true)
    (depth : Nat) : ∀ c ∈ (Element.margin indent depth).toList, Text.isBlank c = true := by
  intro c hc
  rw [Element.margin, String.toList_join] at hc
  obtain ⟨step, hstep, hc⟩ := List.mem_flatMap.mp hc
  rw [List.eq_of_mem_replicate hstep] at hc
  exact h c hc

namespace Reader

variable {indent : String}

theorem run_line_end (r : Reader) (rest : List Char) :
    (r.go .between).run ('\n' :: rest) = (r.go .between).run rest := rfl

/-- A line begins with white space and a bracket, so at its start the reader comes to stand behind
    the bracket. -/
theorem run_margin (r : Reader) (hindent : ∀ c ∈ indent.toList, Text.isBlank c = true) (depth : Nat)
    (rest : List Char) :
    (r.go .between).run ((Element.margin indent depth).toList ++ '<' :: rest)
      = (r.go .bracket).run rest := by
  rw [run_append, run_blank r (blank_margin hindent depth)]
  rfl

/-- The line of an end tag closes the innermost element `x`, whose tag it has to have. -/
theorem run_end_line (r : Reader) (hindent : ∀ c ∈ indent.toList, Text.isBlank c = true)
    (depth : Nat) {x : Xml} (htag : isName x.tag = true) :
    run ⟨.between, x :: r.around, r.roots⟩
        (page [Element.margin indent depth ++ "</" ++ x.tag ++ ">"])
      = some (r.add x) := by
  have hchars : page [Element.margin indent depth ++ "</" ++ x.tag ++ ">"]
      = (Element.margin indent depth).toList ++ '<' :: '/' :: (x.tag.toList ++ ['>', '\n']) := by
    simp [page]
  let inside : Reader := ⟨.between, x :: r.around, r.roots⟩
  have hslash : (inside.go .bracket).step '/' = some (inside.go (.ending [])) := rfl
  have hclose : (inside.go (.ending x.tag.toList)).step '>' = some (r.add x) := by
    show inside.close x.tag.toList = _
    simp only [inside, close, if_true]
    rfl
  calc inside.run (page [Element.margin indent depth ++ "</" ++ x.tag ++ ">"])
      = (inside.go .bracket).run ('/' :: (x.tag.toList ++ ['>', '\n'])) := by
        rw [hchars]
        exact run_margin inside hindent depth _
    _ = (inside.go (.ending x.tag.toList)).run ['>', '\n'] := by
        rw [run_cons, hslash, Option.bind_some, run_append, run_ending inside htag, Option.bind_some]
    _ = ((r.add x).go .between).run ['\n'] := by
        rw [run_cons, hclose, Option.bind_some, go_add]
    _ = some (r.add x) := by
        rw [run_line_end, run_nil, go_add]

end Reader

end Xml

namespace Element

open Xml (page)

variable {precision : Float} {indent : String}

/-- Elements in a row are read one after the other, if each of them is read.  This is the step over
    the children in the induction on an element. -/
theorem run_childrenLines {depth : Nat} {cs : List Element} {ls : List String}
    (hcs : ∀ c ∈ cs, ∀ {ls : List String}, c.lines precision indent depth = .ok ls →
      ∃ x, c.toXml precision = .ok x ∧
        ∀ r : Xml.Reader, (r.go .between).run (page ls) = some (r.add x))
    (h : childrenLines precision indent depth cs = .ok ls) :
    ∃ xs, childrenToXml precision cs = .ok xs ∧
      ∀ r : Xml.Reader, (r.go .between).run (page ls) = some (r.addAll xs) := by
  induction cs generalizing ls with
  | nil =>
    rw [childrenLines] at h
    rw [← Except.ok.inj h]
    exact ⟨[], by rw [childrenToXml]; rfl, fun r => rfl⟩
  | cons c cs ih =>
    rw [childrenLines] at h
    obtain ⟨front, hfront, h⟩ := bind_ok.mp h
    obtain ⟨back, hback, h⟩ := bind_ok.mp h
    obtain ⟨x, hx, hreadFront⟩ := hcs c List.mem_cons_self hfront
    obtain ⟨xs, hxs, hreadBack⟩ := ih (fun d hd => hcs d (List.mem_cons_of_mem c hd)) hback
    refine ⟨x :: xs, ?_, fun r => ?_⟩
    · rw [childrenToXml, hx, hxs]
      rfl
    · rw [← Except.ok.inj h, Xml.page_append, Xml.Reader.run_append, hreadFront, Option.bind_some,
        ← Xml.Reader.go_add, hreadBack, Xml.Reader.addAll_cons]

/-- **What was written is read back.**  The lines of an element are read from one place between tags to
the next. -/
theorem run_lines (hindent : ∀ c ∈ indent.toList, Text.isBlank c = true) {e : Element}
    (hnames : e.Throughout NamedHere) {depth : Nat} {ls : List String}
    (h : e.lines precision indent depth = .ok ls) :
    ∃ x, e.toXml precision = .ok x ∧
      ∀ r : Xml.Reader, (r.go .between).run (page ls) = some (r.add x) := by
  induction e using Element.induction generalizing depth ls with
  | step e ih =>
    obtain ⟨tag, attributes, children⟩ := e
    obtain ⟨htag, hattributes⟩ := hnames.here
    rw [lines] at h
    obtain ⟨markup, hmarkup, h⟩ := bind_ok.mp h
    obtain ⟨texts, htexts, hstart⟩ := Xml.Reader.run_start htag hattributes hmarkup
    cases children with
    | nil =>
      refine ⟨⟨tag, texts, []⟩, ?_, fun r => ?_⟩
      · rw [toXml, htexts, childrenToXml]
        rfl
      · have hchars : page ls = (margin indent depth).toList
            ++ '<' :: (tag.toList ++ (markup.toList ++ '/' :: ['>', '\n'])) := by
          rw [← Except.ok.inj h]
          simp [page]
        have hadd : (r.go (.head ⟨tag, texts, []⟩)).run ['/', '>']
            = some ((r.add ⟨tag, texts, []⟩).go .between) := by
          rw [Xml.Reader.go_add]
          rfl
        rw [hchars, Xml.Reader.run_margin r hindent, hstart r '/' _ (by decide)]
        show (r.go _).run (['/', '>'] ++ ['\n']) = _
        rw [Xml.Reader.run_append, hadd, Option.bind_some, Xml.Reader.run_line_end,
          Xml.Reader.run_nil, Xml.Reader.go_add]
    | cons c cs =>
      obtain ⟨inner, hinner, h⟩ := bind_ok.mp h
      obtain ⟨xs, hxs, hread⟩ := run_childrenLines
        (fun d hd _ hlines => ih d hd (hnames.inside d hd) hlines) hinner
      refine ⟨⟨tag, texts, xs⟩, ?_, fun r => ?_⟩
      · rw [toXml, htexts]
        show (childrenToXml precision (c :: cs) >>= fun inner => pure _) = _
        rw [hxs]
        rfl
      · let inside : Xml.Reader := ⟨.between, ⟨tag, texts, []⟩ :: r.around, r.roots⟩
        have hchars : page ls = (margin indent depth).toList
            ++ '<' :: (tag.toList ++ (markup.toList ++ '>' :: ('\n' :: (page inner
              ++ page [margin indent depth ++ "</" ++ tag ++ ">"])))) := by
          rw [← Except.ok.inj h]
          simp [page]
        have hopen : (r.go (.head ⟨tag, texts, []⟩)).step '>' = some (inside.go .between) := rfl
        have hfilled : inside.addAll xs = ⟨.between, ⟨tag, texts, xs⟩ :: r.around, r.roots⟩ :=
          Xml.Reader.addAll_open _ _ _ _
        rw [hchars, Xml.Reader.run_margin r hindent, hstart r '>' _ (by decide), Xml.Reader.run_cons,
          hopen, Option.bind_some, Xml.Reader.run_line_end, Xml.Reader.run_append, hread,
          Option.bind_some, hfilled]
        exact Xml.Reader.run_end_line r hindent depth (x := ⟨tag, texts, xs⟩) htag

theorem read?_markup (hindent : ∀ c ∈ indent.toList, Text.isBlank c = true) {e : Element}
    (hnames : e.Throughout NamedHere) {xml : String} (h : e.markup precision indent = .ok xml) :
    ∃ x, e.toXml precision = .ok x ∧ Xml.read? xml = some x := by
  obtain ⟨body, hbody, h⟩ := bind_ok.mp h
  obtain ⟨x, hx, hread⟩ := run_lines hindent hnames hbody
  refine ⟨x, hx, ?_⟩
  have hdeclaration : Xml.Reader.init.run (page [declaration]) = some (Xml.Reader.init.go .between) := by
    rfl
  unfold Xml.read?
  rw [← Except.ok.inj h, Xml.toList_join_lines, ← List.singleton_append, Xml.page_append,
    Xml.Reader.run_append, hdeclaration, Option.bind_some, hread]
  rfl

/-! ## Failures -/

/-- `HoldsNumber P e` — somewhere in the element `e` there is a number as an attribute for which `P`
    holds. -/
def HoldsNumber (P : Float → Prop) (e : Element) : Prop :=
  ∃ p d a x, e.at? p = some d ∧ a ∈ d.attributes ∧ a.2 = .number x ∧ P x

/-- **When there is no text.**  Only numbers stop a text: one that is not finite, or any one if the
precision is no possible one. -/
theorem markup_error_iff {e : Element} :
    (∃ r, e.markup precision indent = .error r) ↔
      e.HoldsNumber (fun _ => True) ∧
        ((precisionDigits? precision).isSome = false ∨ e.HoldsNumber (·.isFinite = false)) := by
  have hrefused : (∃ r, e.markup precision indent = .error r) ↔
      ¬∃ xml, e.markup precision indent = .ok xml := by
    cases e.markup precision indent with
    | ok xml => exact ⟨fun ⟨_, h⟩ => (nomatch h), fun h => absurd ⟨xml, rfl⟩ h⟩
    | error r => exact ⟨fun _ ⟨_, h⟩ => (nomatch h), fun _ => ⟨r, rfl⟩⟩
  rw [hrefused, markup_ok_iff_writable, Throughout.iff_at?]
  simp only [WritableHere, Attribute.writable_iff]
  constructor
  · intro h
    push Not at h
    obtain ⟨p, d, hd, a, ha, x, hx, hbad⟩ := h
    refine ⟨⟨p, d, a, x, hd, ha, hx, trivial⟩, ?_⟩
    cases hfinite : x.isFinite with
    | false => exact Or.inr ⟨p, d, a, x, hd, ha, hx, hfinite⟩
    | true => exact Or.inl (Bool.eq_false_iff.mpr (hbad hfinite))
  · rintro ⟨⟨p, d, a, x, hd, ha, hx, -⟩, hprecision | ⟨q, d', a', y, hd', ha', hy, hinfinite⟩⟩ h
    · exact absurd (h p d hd a ha x hx).2 (by rw [hprecision]; decide)
    · exact absurd (h q d' hd' a' ha' y hy).1 (by rw [hinfinite]; decide)

/-- **Writing can be undone.**  Where all names can be read and all numbers are finite, an element has a
text at every whole precision from one to seventeen and for every margin of white space, and the text
is read back as the element with the texts of its values.  There is no text exactly if the element
holds a number and the precision is no such one or some number is not finite. -/
theorem markup_invertible (e : Element) (precision : Float) (indent : String) :
    ((∃ k, 1 ≤ k ∧ k ≤ 17 ∧ precision = Float.ofNat k) →
      (∀ c ∈ indent.toList, Text.isBlank c = true) →
      (∀ p d, e.at? p = some d → Xml.isName d.tag = true ∧
        ∀ a ∈ d.attributes, Xml.isName a.1 = true ∧ a.2.Finite) →
      ∃ xml x, e.markup precision indent = .ok xml ∧ e.toXml precision = .ok x ∧
        Xml.read? xml = some x) ∧
    ((∃ r, e.markup precision indent = .error r) ↔
      e.HoldsNumber (fun _ => True) ∧
        ((¬∃ k, 1 ≤ k ∧ k ≤ 17 ∧ precision = Float.ofNat k) ∨ e.HoldsNumber (·.isFinite = false))) := by
  constructor
  · intro hprecision hindent hplaces
    have hnames : e.Throughout NamedHere := Throughout.iff_at?.mpr fun p d hd =>
      ⟨(hplaces p d hd).1, fun a ha => ((hplaces p d hd).2 a ha).1⟩
    have hfinite : e.Throughout FiniteHere := Throughout.iff_at?.mpr fun p d hd a ha =>
      ((hplaces p d hd).2 a ha).2
    obtain ⟨xml, hxml⟩ := (markup_ok_iff (precisionDigits?_isSome_iff.mpr hprecision)).mpr hfinite
    obtain ⟨x, hx, hread⟩ := read?_markup hindent hnames hxml
    exact ⟨xml, x, hxml, hx, hread⟩
  · rw [markup_error_iff, ← precisionDigits?_isSome_iff, Bool.not_eq_true]

/-- A value that looks like an escape, with all characters that are escaped. -/
def quotation : Element :=
  ⟨"note", [("text", .text "&lt; <'\">&"), ("size", .number 0.5)], [⟨"line", [], []⟩]⟩

theorem markup_invertible_quotation :
    (∃ xml x, quotation.markup (Float.ofNat 3) "\t" = .ok xml ∧
      quotation.toXml (Float.ofNat 3) = .ok x ∧ Xml.read? xml = some x) ∧
    ∃ r, quotation.markup 0.5 "" = .error r := by
  have hplaces : quotation.Throughout fun d => Xml.isName d.tag = true ∧
      ∀ a ∈ d.attributes, Xml.isName a.1 = true ∧ a.2.Finite := by
    refine .mk ⟨by decide, ?_⟩ ?_
    · intro a ha
      rcases List.mem_pair.mp ha with rfl | rfl
      · exact ⟨by decide, trivial⟩
      · exact ⟨by decide, rfl⟩
    · intro c hc
      rw [List.mem_singleton.mp hc]
      exact (Throughout.iff_here rfl).mpr ⟨by decide, fun a ha => absurd ha List.not_mem_nil⟩
  have hmargin : ∀ c ∈ "\t".toList, Text.isBlank c = true := List.all_eq_true.mp (by decide)
  have hnumber : quotation.HoldsNumber fun _ => True :=
    ⟨[], quotation, ("size", .number 0.5), 0.5, rfl, List.mem_cons_of_mem _ List.mem_cons_self, rfl,
      trivial⟩
  have hhalf : ¬∃ k, 1 ≤ k ∧ k ≤ 17 ∧ (0.5 : Float) = Float.ofNat k := by
    rw [← precisionDigits?_isSome_iff]
    decide
  exact ⟨(markup_invertible quotation _ _).1 ⟨3, by decide, by decide, rfl⟩ hmargin
      (Throughout.iff_at?.mp hplaces),
    (markup_invertible quotation _ _).2.mpr ⟨hnumber, Or.inl hhalf⟩⟩

end Element

end SolidExport
