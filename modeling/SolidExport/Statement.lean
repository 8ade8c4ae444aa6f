/-
  Statements: a text cut into leveled signatures.

  A statement ends at `;`, or at `{`, which opens its body one level deeper; `}` closes the body.
  White space outside strings and comments are dropped.  Leading modifiers are stripped: `*` and `%`
  drop the statement and its body, `!` gives a warning and `#` nothing.

  `Scanner` is a machine that takes one character at a time, so scanning a text and then another is
  scanning the two in a row.  Its `Mode` says whether it is in plain text, behind a slash that may
  open a comment, in a comment, or in a string.
-/
import SolidExport.Signature

namespace SolidExport

/-- A signature with its level of nesting and the line it begins on. -/
structure Statement where
  signature : String
  level : Int
  line : Int
deriving DecidableEq, Repr

namespace Statement

/-- `s.location` — the place that faults of the statement `s` name. -/
def location (s : Statement) : Location := Signature.location s.line s.signature

end Statement

/-! ## The state of the scan -/

/-- What the scanner is inside of. -/
inductive Mode where
  | plain
  /-- Behind a slash that may open a comment. -/
  | slash
  | lineComment
  /-- In a comment opened on a line, perhaps behind a star. -/
  | blockComment (opened : Nat) (star : Bool)
  /-- In a string read so far as `literal`, perhaps behind a backslash. -/
  | string (literal : String) (escaped : Bool)
deriving DecidableEq, Repr

/-- The state of a scan: all that is known behind some characters of a text. -/
structure Scanner where
  mode : Mode
  /-- The line of the next character. -/
  line : Nat
  /-- How many bodies are open. -/
  level : Nat
  /-- How many parentheses are open. -/
  parens : Nat
  /-- The statement read so far, without white space and comments. -/
  buffer : String
  /-- The line of the first character of `buffer`. -/
  startLine : Nat
  /-- The level of the disabled statement whose body is being dropped. -/
  dropping : Option Nat
  statements : Array Statement
  warnings : Array Warning

/-- A scan that was stopped: the fault, and the warnings given before. -/
structure Halt where
  fault : Fault
  warnings : Array Warning

namespace Scanner

/-- The scanner before the first character. -/
def init : Scanner := ⟨.plain, 1, 0, 0, "", 0, none, #[], #[]⟩

/-- `s.halt cause line statement` — stops the scan at a statement that begins on `line`.  The
warnings given so far are kept. -/
def halt (s : Scanner) (cause : Cause) (line : Nat) (statement : String) : Except Halt Scanner :=
  .error ⟨.located (Signature.location line statement) cause, s.warnings⟩

/-- `s.mark` — the scanner at the beginning of something that goes into the buffer: an empty buffer
begins on this line. -/
def mark (s : Scanner) : Scanner :=
  if s.buffer.isEmpty then { s with startLine := s.line } else s

/-- `s.push c` — adds the character `c` to the statement. -/
def push (s : Scanner) (c : Char) : Scanner :=
  let s := s.mark
  { s with buffer := s.buffer.push c }

/-! ## The end of a statement -/

/-- `isModifier c` — whether the character `c` is a modifier, if it stands in front of a
statement. -/
def isModifier (c : Char) : Bool := c == '*' || c == '%' || c == '!' || c == '#'

/-- `disables c` — whether the modifier `c` disables its statement. -/
def disables (c : Char) : Bool := c == '*' || c == '%'

/-- `s.endStatement opensBody` — ends the statement in the buffer, which is not empty.  A disabled
one is not recorded, and neither is anything in its body; its modifiers are remarked on all the
same. -/
def endStatement (s : Scanner) (opensBody : Bool) : Scanner :=
  let modifiers := s.buffer.toList.takeWhile isModifier
  let statement := String.ofList (s.buffer.toList.dropWhile isModifier)
  let ignored := (modifiers.filter (· == '!')).map fun _ => Warning.ignoredModifier s.startLine
  let s := { s with buffer := "", warnings := s.warnings ++ ignored.toArray }
  let s :=
    if s.dropping.isSome then s
    else if modifiers.any disables then
      { s with
        warnings := s.warnings.push (.disabledStatement s.startLine statement)
        dropping := if opensBody then some s.level else none }
    else
      { s with statements := s.statements.push ⟨statement, s.level, s.startLine⟩ }
  if opensBody then { s with level := s.level + 1 } else s

/-- `s.semicolon` — the scanner behind a semicolon.  One that ends nothing is ignored. -/
def semicolon (s : Scanner) : Except Halt Scanner :=
  .ok (if s.buffer.isEmpty then s else s.endStatement false)

/-- `s.openBrace` — the scanner behind an opening brace, which needs a statement in front of it. -/
def openBrace (s : Scanner) : Except Halt Scanner :=
  if s.buffer.isEmpty then s.halt .bodyWithoutStatement s.line "\x7b"
  else .ok (s.endStatement true)

/-- `s.closeBrace` — the scanner behind a closing brace, which needs an open body and may not stand
in for a semicolon.  With the body of a disabled statement the dropping ends. -/
def closeBrace (s : Scanner) : Except Halt Scanner :=
  if s.buffer.isEmpty then
    match s.level with
    | 0 => s.halt .unbalancedBrace s.line "\x7d"
    | level + 1 =>
      .ok { s with
        level := level
        dropping := if s.dropping = some level then none else s.dropping }
  else s.halt .missingSemicolon s.startLine s.buffer

/-! ## Characters -/

/-- `s.glyph c` — the scanner behind a character `c` of plain text that is no white space and begins
no string or comment.  Inside parentheses a semicolon or a brace is like any other character. -/
def glyph (s : Scanner) (c : Char) : Except Halt Scanner :=
  if s.parens = 0 ∧ c = ';' then s.semicolon
  else if s.parens = 0 ∧ c = '\x7b' then s.openBrace
  else if s.parens = 0 ∧ c = '\x7d' then s.closeBrace
  else if c = '(' then .ok ({ s with parens := s.parens + 1 }.push c)
  else if c = ')' then
    match s.parens with
    | 0 => s.halt .unbalancedParenthesis s.line (s.buffer.push c)
    | parens + 1 => .ok ({ s with parens := parens }.push c)
  else .ok (s.push c)

/-- `s.countLine c` — the scanner `s` on the line behind `c`, which is another one if `c` is a line
end. -/
def countLine (s : Scanner) (c : Char) : Scanner :=
  if c = '\n' then { s with line := s.line + 1 } else s

/-- `s.plain c` — the scanner behind one character of plain text. -/
def plain (s : Scanner) (c : Char) : Except Halt Scanner :=
  if c = '"' then .ok { s.mark with mode := .string "\"" false }
  else if c = '/' then .ok { s with mode := .slash }
  else if Text.isBlank c then .ok (s.countLine c)
  else s.glyph c

/-- `s.loneSlash` — the scanner behind a slash that opened no comment, which goes into the
statement. -/
def loneSlash (s : Scanner) : Scanner := { s with mode := .plain }.push '/'

/-- `s.step c` — the scanner behind one more character, whatever it is inside of. -/
def step (s : Scanner) (c : Char) : Except Halt Scanner :=
  match s.mode with
  | .plain => s.plain c
  | .slash =>
    if c = '/' then .ok { s with mode := .lineComment }
    else if c = '*' then .ok { s with mode := .blockComment s.line false }
    else s.loneSlash.plain c
  | .lineComment =>
    if c = '\n' then .ok ({ s with mode := .plain }.countLine c) else .ok s
  | .blockComment opened star =>
    if star && c == '/' then .ok { s with mode := .plain }
    else .ok ({ s with mode := .blockComment opened (c == '*') }.countLine c)
  | .string literal escaped =>
    let s := s.countLine c
    let literal := literal.push c
    if escaped then .ok { s with mode := .string literal false }
    else if c = '\\' then .ok { s with mode := .string literal true }
    else if c = '"' then .ok { s with mode := .plain, buffer := s.buffer ++ literal }
    else .ok { s with mode := .string literal false }

/-- `s.close` — checks that no statement and no body is left open. -/
def close (s : Scanner) : Except Halt Scanner :=
  if !s.buffer.isEmpty then s.halt .unterminatedStatement s.startLine s.buffer
  else if s.level ≠ 0 then s.halt (.missingBraces s.level) s.line "\x7d"
  else .ok s

/-- `s.finish` — the scanner at the end of the text.  A comment of one line may end there; a string
or another comment may not. -/
def finish (s : Scanner) : Except Halt Scanner :=
  match s.mode with
  | .plain | .lineComment => s.close
  | .slash => s.loneSlash.close
  | .blockComment opened _ => s.halt .unterminatedComment opened s.buffer
  | .string .. => s.halt .unterminatedString s.line s.buffer

end Scanner

/-! ## The scan of a text -/

/-- What a scan gives: the warnings, and the statements or a fault. -/
structure Scan where
  warnings : List Warning
  result : Except Fault (List Statement)

/-- `Statement.scan text` — the statements of a text, as far as it can be read. -/
def Statement.scan (text : String) : Scan :=
  match text.toList.foldlM Scanner.step Scanner.init >>= Scanner.finish with
  | .ok s => ⟨s.warnings.toList, .ok s.statements.toList⟩
  | .error h => ⟨h.warnings.toList, .error h.fault⟩

end SolidExport
