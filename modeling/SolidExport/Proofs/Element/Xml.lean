/-
  Reading XML text.

  `Xml` is an element as a text shows it: its attribute values are texts.  The reader takes one
  character at a time, as the scanner of statements does.  Its `Place` says what it is inside of; the
  elements that are open around it are kept innermost first, each with the children read so far.

  It reads what a document without content other than elements is made of: a declaration, start tags,
  end tags and tags that close themselves, attributes with values in double quotes, and the five
  entities.  Between tags there is nothing but white space.
-/
import SolidExport.Text.Blank

namespace SolidExport

/-- An element as it is read from a text: the values of its attributes are texts, since a document
    does not say which of them are numbers. -/
structure Xml where
  tag : String
  attributes : List (String × String)
  children : List Xml

namespace Xml

/-- `x.push name value` — the element `x` with one more attribute, behind those that are there. -/
def push (x : Xml) (name value : String) : Xml :=
  { x with attributes := x.attributes ++ [(name, value)] }

/-- `isNameChar c` — whether `c` may stand in the name of an element or attribute: anything but
    white space and the characters that mean something in a tag. -/
def isNameChar (c : Char) : Bool :=
  !(Text.isBlank c || ['<', '>', '&', '"', '\'', '/', '=', '!', '?'].contains c)

/-- `isName s` — whether `s` can be written as a name and read back: it is not empty, and made of
    characters of names. -/
def isName (s : String) : Bool := !s.toList.isEmpty && s.toList.all isNameChar

/-- `entity? name` — the character that the entity `name` stands for, of the five that need no
    definition. -/
def entity? (name : List Char) : Option Char :=
  [("lt".toList, '<'), ("gt".toList, '>'), ("amp".toList, '&'), ("quot".toList, '"'),
    ("apos".toList, '\'')].lookup name

/-- What the reader is inside of, with what it has read of that. -/
inductive Place where
  | between
  /-- Behind the bracket that opens a tag. -/
  | bracket
  /-- In the declaration, perhaps behind a question mark. -/
  | declaration (question : Bool)
  /-- In the name of a start tag. -/
  | tag (name : List Char)
  /-- In a start tag, behind the name or a value. -/
  | head (x : Xml)
  /-- In a start tag, behind white space. -/
  | gap (x : Xml)
  /-- In the name of an attribute. -/
  | key (x : Xml) (name : List Char)
  /-- Behind the equals sign of an attribute. -/
  | equals (x : Xml) (name : List Char)
  /-- In the value of an attribute. -/
  | value (x : Xml) (name text : List Char)
  /-- In an entity in the value of an attribute. -/
  | entity (x : Xml) (name text code : List Char)
  /-- Behind the slash of a tag that closes itself. -/
  | slash (x : Xml)
  /-- In the name of an end tag. -/
  | ending (name : List Char)

/-- The state of the reader: where it is, and the elements that it has read. -/
structure Reader where
  place : Place
  /-- The open elements, innermost first. -/
  around : List Xml
  /-- The elements that are in no other. -/
  roots : List Xml

namespace Reader

/-- Before the first character: between tags, with nothing read. -/
def init : Reader := ⟨.between, [], []⟩

/-- `r.go p` — the reader `r` moved to the place `p`, with the same elements. -/
def go (r : Reader) (p : Place) : Reader := { r with place := p }

/-- `r.add x` — the reader between tags, behind the whole element `x`.  It is a child of the
    innermost open element, or a root if none is open. -/
def add (r : Reader) (x : Xml) : Reader :=
  match r.around with
  | [] => ⟨.between, [], r.roots ++ [x]⟩
  | parent :: rest => ⟨.between, { parent with children := parent.children ++ [x] } :: rest, r.roots⟩

/-- `r.close name` — the reader behind an end tag of that name: the innermost open element is whole
    now.  There is none if the name is another. -/
def close (r : Reader) (name : List Char) : Option Reader :=
  match r.around with
  | [] => none
  | x :: rest => if x.tag.toList = name then some ({ r with around := rest }.add x) else none

/-- `r.head x c` — the reader behind the character `c` in the start tag of `x`, where `c` is in no
    name and no value: it ends the tag, begins its end, or is white space. -/
def head (r : Reader) (x : Xml) (c : Char) : Option Reader :=
  if c = '>' then some ⟨.between, x :: r.around, r.roots⟩
  else if c = '/' then some (r.go (.slash x))
  else if Text.isBlank c then some (r.go (.gap x))
  else none

/-- `r.step c` — the reader behind one more character, or none if `c` cannot stand there. -/
def step (r : Reader) (c : Char) : Option Reader :=
  match r.place with
  | .between =>
    if c = '<' then some (r.go .bracket) else if Text.isBlank c then some r else none
  | .bracket =>
    if c = '/' then some (r.go (.ending []))
    else if c = '?' then
      -- a declaration stands before everything else
      if r.around.isEmpty && r.roots.isEmpty then some (r.go (.declaration false)) else none
    else if isNameChar c then some (r.go (.tag [c]))
    else none
  | .declaration question =>
    some (r.go (if question ∧ c = '>' then .between else .declaration (c == '?')))
  | .tag name =>
    if isNameChar c then some (r.go (.tag (name ++ [c]))) else r.head ⟨String.ofList name, [], []⟩ c
  | .head x => r.head x c
  | .gap x => if isNameChar c then some (r.go (.key x [c])) else r.head x c
  | .key x name =>
    if isNameChar c then some (r.go (.key x (name ++ [c])))
    else if c = '=' then some (r.go (.equals x name))
    else none
  | .equals x name => if c = '"' then some (r.go (.value x name [])) else none
  | .value x name text =>
    if c = '"' then
      some (r.go (.head (x.push (String.ofList name) (String.ofList text))))
    else if c = '&' then some (r.go (.entity x name text []))
    else if c = '<' then none
    else some (r.go (.value x name (text ++ [c])))
  | .entity x name text code =>
    if c = ';' then (entity? code).map fun d => r.go (.value x name (text ++ [d]))
    else some (r.go (.entity x name text (code ++ [c])))
  | .slash x => if c = '>' then some (r.add x) else none
  | .ending name =>
    if isNameChar c then some (r.go (.ending (name ++ [c])))
    else if c = '>' then r.close name
    else none

/-- `r.run text` — the reader behind some more characters, or none if one of them cannot stand where
    it does. -/
def run (r : Reader) (text : List Char) : Option Reader := text.foldlM step r

/-- `r.result?` — the element that was read, if there is exactly one that is in no other, and
    nothing is left open. -/
def result? (r : Reader) : Option Xml :=
  match r.place, r.around, r.roots with
  | .between, [], [x] => some x
  | _, _, _ => none

end Reader

/-- `read? text` — the element that a document holds.  This reader knows nothing of how documents
    are written: it is the other side of that. -/
def read? (text : String) : Option Xml := (Reader.init.run text.toList).bind Reader.result?

end Xml

end SolidExport
