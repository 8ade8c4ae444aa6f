/-
  Reading JSON.

  As with literals, the text is cut into tokens and the tokens are assembled by a machine with a
  stack of the arrays and objects that are still open.  A word is a longest run of characters that
  are neither white space nor punctuation.  What a value may begin with is read off its front; the
  rest of the word, if any, is something that stands where it cannot.

  A string that cannot be read to its end is the last token.  Its own fault counts only where a
  string may stand, so the first fault of the text is the one that is found.
-/
import SolidExport.Json.Basic
import SolidExport.Json.ReadFault

namespace SolidExport.Json

/-! ## Tokens -/

/-- What a token of a JSON text is. -/
inductive TokenKind where
  | mark (c : Char)
  | quoted (value : String)
  /-- A string that has a fault. -/
  | broken (f : ReadFault)
  | word (text : String)
deriving DecidableEq, Repr

/-- A token of a JSON text, and how many code units stand before it. -/
structure Token where
  kind : TokenKind
  position : Nat
deriving DecidableEq, Repr

/-- What a string is behind: nothing, a backslash, or some digits of a code unit. -/
inductive Escape where
  | none
  | backslash
  | unicode (digits : List Char)
deriving DecidableEq, Repr

/-- Where the cutting stands; `start` is where the token that is being read begins.  A string is
collected in code units, latest first. -/
inductive Pending where
  | idle
  | word (start : Nat) (text : String)
  | quoted (start : Nat) (units : List Nat) (escape : Escape)
  /-- Behind a string that has a fault. -/
  | halted
deriving DecidableEq, Repr

/-- The state of the cutting: the tokens so far, what is being read, and how many code units have
been. -/
structure Cutter where
  tokens : Array Token
  pending : Pending
  position : Nat

namespace Cutter

/-- `isBlank c` — whether `c` is white space between tokens.  There is less of it than in
programs. -/
def isBlank (c : Char) : Bool := c == ' ' || c == '\t' || c == '\n' || c == '\r'

/-- `isMark c` — whether the character `c` is a token by itself. -/
def isMark (c : Char) : Bool :=
  c == '\x7b' || c == '\x7d' || c == '[' || c == ']' || c == ':' || c == ','

/-- `c.emit start kind` — the cutter with a token that began at `start`, between tokens. -/
def emit (c : Cutter) (start : Nat) (kind : TokenKind) : Cutter :=
  { c with tokens := c.tokens.push ⟨kind, start⟩, pending := .idle }

/-- `c.halt start cause` — the cutter behind a string that began at `start` and has a fault here.
Nothing is cut behind it. -/
def halt (c : Cutter) (start : Nat) (cause : ReadCause) : Cutter :=
  { c.emit start (.broken ⟨cause, c.position⟩) with pending := .halted }

/-- `c.between ch` — the cutter behind a character between tokens, which may begin one. -/
def between (c : Cutter) (ch : Char) : Cutter :=
  if isBlank ch then { c with pending := .idle }
  else if isMark ch then c.emit c.position (.mark ch)
  else if ch = '"' then { c with pending := .quoted c.position [] .none }
  else { c with pending := .word c.position (String.singleton ch) }

/-- `unescape? ch` — the character that `ch` behind a backslash stands for, if it stands for one. -/
def unescape? : Char → Option Char
  | '"' => some '"'
  | '\\' => some '\\'
  | '/' => some '/'
  | 'b' => some '\x08'
  | 'f' => some '\x0c'
  | 'n' => some '\n'
  | 'r' => some '\r'
  | 't' => some '\t'
  | _ => none

/-- `c.inString start units escape ch` — the cutter behind a character `ch` of a string that began
at `start` and of which `units` have been read. -/
def inString (c : Cutter) (start : Nat) (units : List Nat) (escape : Escape) (ch : Char) : Cutter :=
  match escape with
  | .none =>
    if ch = '"' then c.emit start (.quoted (String.ofList (Text.ofUnits units.reverse)))
    else if ch = '\\' then { c with pending := .quoted start units .backslash }
    else if ch.toNat < 0x20 then c.halt start .badControl
    else { c with pending := .quoted start ((Text.units ch).reverse ++ units) .none }
  | .backslash =>
    if ch = 'u' then { c with pending := .quoted start units (.unicode []) }
    else match unescape? ch with
      | some e => { c with pending := .quoted start (e.toNat :: units) .none }
      | none => c.halt start (if ch.toNat < 0x100 then .badEscape else .unterminatedString)
  | .unicode digits =>
    if (digitValue? 16 ch).isNone then c.halt start .badUnicodeEscape
    else if digits.length < 3 then
      { c with pending := .quoted start units (.unicode (digits ++ [ch])) }
    else
      { c with pending := .quoted start (digitsValue 16 (digits ++ [ch]) :: units) .none }

/-- `c.take ch` — what the character `ch` does to the tokens, wherever the cutting stands. -/
def take (c : Cutter) (ch : Char) : Cutter :=
  match c.pending with
  | .idle => c.between ch
  | .word start text =>
    if isBlank ch || isMark ch || ch == '"' then (c.emit start (.word text)).between ch
    else { c with pending := .word start (text.push ch) }
  | .quoted start units escape => c.inString start units escape ch
  | .halted => c

/-- `c.step ch` — the cutter behind one more character, its code units counted. -/
def step (c : Cutter) (ch : Char) : Cutter :=
  let c := c.take ch
  { c with position := c.position + (Text.units ch).length }

/-- `c.finish` — the cutter at the end of the text, where a string that is open has a fault. -/
def finish (c : Cutter) : Cutter :=
  match c.pending with
  | .idle | .halted => c
  | .word start text => c.emit start (.word text)
  | .quoted start _ (.unicode _) => c.halt start .badUnicodeEscape
  | .quoted start .. => c.halt start .unterminatedString

/-- `run cs` — the cutter at the end of the text `cs`. -/
def run (cs : List Char) : Cutter := (cs.foldl step ⟨#[], .idle, 0⟩).finish

end Cutter

/-! ## Numbers -/

/-- `digitRun cs` — how many digits the text `cs` begins with. -/
def digitRun (cs : List Char) : Nat := (cs.takeWhile isDigit).length

/-- `scanWhole cs` — the length of the whole number at the front of `cs`.  There is no plus sign,
and a zero is the only digit if it is the first. -/
def scanWhole (cs : List Char) : Except ReadFault Nat :=
  let sign := if cs.head? = some '-' then 1 else 0
  match cs.drop sign with
  | '0' :: c :: _ => if isDigit c then .error ⟨.unexpected, sign + 1⟩ else .ok (sign + 1)
  | rest =>
    let n := digitRun rest
    if n = 0 then .error ⟨.missingDigits, sign⟩ else .ok (sign + n)

/-- `scanFraction cs` — the length of the fraction at the front of `cs`: a point and digits, or
nothing. -/
def scanFraction : List Char → Except ReadFault Nat
  | '.' :: cs =>
    let n := digitRun cs
    if n = 0 then .error ⟨.missingFraction, 1⟩ else .ok (1 + n)
  | _ => .ok 0

/-- `scanExponent cs` — the length of the exponent at the front of `cs`: the letter, perhaps a sign,
and digits, or nothing. -/
def scanExponent : List Char → Except ReadFault Nat
  | c :: cs =>
    if c = 'e' ∨ c = 'E' then
      let sign := if cs.head? = some '+' ∨ cs.head? = some '-' then 1 else 0
      let n := digitRun (cs.drop sign)
      if n = 0 then .error ⟨.missingExponent, 1 + sign⟩ else .ok (1 + sign + n)
    else .ok 0
  | [] => .ok 0

/-- `scanNumber cs` — the length of the number at the front of `cs`, or where it breaks off. -/
def scanNumber (cs : List Char) : Except ReadFault Nat := do
  let whole ← scanWhole cs
  let fraction ← (scanFraction (cs.drop whole)).mapError (·.shift whole)
  let n := whole + fraction
  let exponent ← (scanExponent (cs.drop n)).mapError (·.shift n)
  return n + exponent

/-! ## Words -/

/-- `sharedLength as bs` — how long a beginning the two texts share. -/
def sharedLength : List Char → List Char → Nat
  | a :: as, b :: bs => if a = b then sharedLength as bs + 1 else 0
  | _, _ => 0

/-- `readName name value cs` — a name read off the front of the word `cs`, with its value and
length. -/
def readName (name : String) (value : Json) (cs : List Char) : Except ReadFault (Json × Nat) :=
  let n := sharedLength name.toList cs
  if n = name.length then .ok (value, n) else .error ⟨.unexpected, n⟩

/-- `readWord cs` — the value at the front of the word `cs`, and its length. -/
def readWord (cs : List Char) : Except ReadFault (Json × Nat) :=
  match cs.head? with
  | some 'n' => readName "null" .null cs
  | some 't' => readName "true" (.boolean true) cs
  | some 'f' => readName "false" (.boolean false) cs
  | some c =>
    if c = '-' ∨ isDigit c then
      (scanNumber cs).map fun n => (.number (String.ofList (cs.take n)), n)
    else .error ⟨.unexpected, 0⟩
  | none => .error ⟨.unexpected, 0⟩

/-! ## Assembly -/

/-- An array or object that is still open, with its latest part first. -/
inductive Frame where
  | array (items : List Json)
  | object (members : List (String × Json)) (name : String)

/-- What the assembly has, and what it waits for.  Every stack has the innermost frame first. -/
inductive Assembly where
  /-- It waits for a value. -/
  | expecting (stack : List Frame)
  /-- It waits for the first item of an array, or its end. -/
  | arrayOpened (stack : List Frame)
  /-- It waits for the first name of an object, or its end. -/
  | objectOpened (stack : List Frame)
  /-- It waits for the next name of an object. -/
  | naming (members : List (String × Json)) (stack : List Frame)
  /-- It waits for the colon behind a name. -/
  | named (members : List (String × Json)) (name : String) (stack : List Frame)
  /-- It has completed a value. -/
  | completed (done : Json) (stack : List Frame)

namespace Assembly

/-- `a.objection` — what is wrong where anything stands that the assembly does not wait for. -/
def objection : Assembly → ReadCause
  | .expecting _ | .arrayOpened _ => .unexpected
  | .objectOpened _ => .nameOrBraceExpected
  | .naming .. => .quotedNameExpected
  | .named .. => .colonExpected
  | .completed _ [] => .trailingText
  | .completed _ (.array _ :: _) => .commaOrBracketExpected
  | .completed _ (.object .. :: _) => .commaOrBraceExpected

/-- `a.refuse position` — refuses what stands at a position. -/
def refuse (a : Assembly) (position : Nat) : Except ReadFault Assembly :=
  .error ⟨a.objection, position⟩

/-- `word stack position text` — the assembly with a value from the front of a word.  Nothing may be
left of the word. -/
def word (stack : List Frame) (position : Nat) (text : String) : Except ReadFault Assembly := do
  let (value, n) ← (readWord text.toList).mapError (·.shift position)
  let next := Assembly.completed value stack
  if n < text.length then next.refuse (position + n) else return next

/-- `begin stack t` — the assembly behind a token `t` that begins a value. -/
def begin (stack : List Frame) (t : Token) : Except ReadFault Assembly :=
  match t.kind with
  | .mark '[' => .ok (.arrayOpened stack)
  | .mark '\x7b' => .ok (.objectOpened stack)
  | .mark _ => .error ⟨.unexpected, t.position⟩
  | .quoted value => .ok (.completed (.string value) stack)
  | .broken f => .error f
  | .word text => word stack t.position text

/-- `a.step t` — the assembly behind one more token, or the first fault of the text. -/
def step (a : Assembly) (t : Token) : Except ReadFault Assembly :=
  match a, t.kind with
  | .expecting stack, _ => begin stack t
  | .arrayOpened stack, .mark ']' => .ok (.completed (.array []) stack)
  | .arrayOpened stack, _ => begin (.array [] :: stack) t
  | .objectOpened stack, .mark '\x7d' => .ok (.completed (.object []) stack)
  | .objectOpened stack, .quoted name => .ok (.named [] name stack)
  | .naming members stack, .quoted name => .ok (.named members name stack)
  | .objectOpened _, .broken f | .naming .., .broken f => .error f
  | .named members name stack, .mark ':' => .ok (.expecting (.object members name :: stack))
  | .completed done (.array items :: stack), .mark ',' =>
    .ok (.expecting (.array (done :: items) :: stack))
  | .completed done (.array items :: stack), .mark ']' =>
    .ok (.completed (.array (done :: items).reverse) stack)
  | .completed done (.object members name :: stack), .mark ',' =>
    .ok (.naming ((name, done) :: members) stack)
  | .completed done (.object members name :: stack), .mark '\x7d' =>
    .ok (.completed (.object ((name, done) :: members).reverse) stack)
  | a, _ => a.refuse t.position

/-- `a.finish position` — the value at the end of the text: one value, and nothing open. -/
def finish (a : Assembly) (position : Nat) : Except ReadFault Json :=
  match a with
  | .completed done [] => .ok done
  | a => .error ⟨a.objection, position⟩

end Assembly

/-- `read text` — the value that a text is, or the first fault in it. -/
def read (text : String) : Except ReadFault Json := do
  let cutter := Cutter.run text.toList
  let assembly ← cutter.tokens.toList.foldlM Assembly.step (.expecting [])
  assembly.finish cutter.position

/-- `fault? text` — the first fault in a text, if it has one. -/
def fault? (text : String) : Option ReadFault :=
  match read text with
  | .ok _ => none
  | .error f => some f

example : fault? "[1, -0.5e3, \"a\\u0041\", null]" = none := by decide +kernel
example : fault? "[nul]" = some ⟨.unexpected, 4⟩ := by decide +kernel
example : fault? "[-x]" = some ⟨.missingDigits, 2⟩ := by decide +kernel
example : fault? "[1 \"" = some ⟨.commaOrBracketExpected, 3⟩ := by decide +kernel

end SolidExport.Json
