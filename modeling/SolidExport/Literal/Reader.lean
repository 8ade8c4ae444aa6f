/-
  Reading literals.

  The text is first cut into tokens.  A `Token` is a bracket, a comma, a string with its escapes
  undone, or a word: a longest run of characters that are neither white space nor one of `[ ] , "`.
  After a number or a keyword only white space, a comma, a bracket or the end may follow, so a word
  is either one of them as a whole or no literal.

  The tokens are then assembled by a machine with a stack of the vectors that are still open.  Both
  passes are one step per character and per token, so the depth of nesting is no recursion.
-/
import SolidExport.Literal.Basic

namespace SolidExport.Literal

/-! ## Tokens -/

/-- A token of a literal.  Where it stood is forgotten: a text that is no literal has no fault, it
binds nothing. -/
inductive Token where
  | opening
  | closing
  | comma
  | quoted (value : String)
  | word (text : String)
deriving DecidableEq, Repr

/-- Where the cutting stands: between tokens, in a word, or in a string. -/
inductive Pending where
  | idle
  | word (text : String)
  | quoted (value : String) (escaped : Bool)
deriving DecidableEq, Repr

/-- The state of the cutting: the tokens so far, and what is being read. -/
structure Cutter where
  tokens : Array Token
  pending : Pending

namespace Cutter

/-- `c.emit t` — the cutter with the token `t` behind the others, between tokens. -/
def emit (c : Cutter) (t : Token) : Cutter := ⟨c.tokens.push t, .idle⟩

/-- `c.start ch` — the cutter behind a character between tokens, which may begin one. -/
def start (c : Cutter) (ch : Char) : Cutter :=
  if Text.isBlank ch then { c with pending := .idle }
  else match ch with
    | '[' => c.emit .opening
    | ']' => c.emit .closing
    | ',' => c.emit .comma
    | '"' => { c with pending := .quoted "" false }
    | _ => { c with pending := .word (String.singleton ch) }

/-- `endsWord ch` — whether the character `ch` ends a word.  It is then read again between
tokens. -/
def endsWord (ch : Char) : Bool :=
  Text.isBlank ch || ch == '[' || ch == ']' || ch == ',' || ch == '"'

/-- `c.step ch` — the cutter behind one more character.  In a string a backslash keeps whatever
follows it. -/
def step (c : Cutter) (ch : Char) : Cutter :=
  match c.pending with
  | .idle => c.start ch
  | .word text =>
    if endsWord ch then (c.emit (.word text)).start ch
    else { c with pending := .word (text.push ch) }
  | .quoted value true => { c with pending := .quoted (value.push ch) false }
  | .quoted value false =>
    if ch = '"' then c.emit (.quoted value)
    else if ch = '\\' then { c with pending := .quoted value true }
    else { c with pending := .quoted (value.push ch) false }

/-- `c.finish` — the tokens at the end of the text; none inside a string. -/
def finish : Cutter → Option (List Token)
  | ⟨tokens, .idle⟩ => some tokens.toList
  | ⟨tokens, .word text⟩ => some (tokens.push (.word text)).toList
  | ⟨_, .quoted ..⟩ => none

end Cutter

/-- `tokens? cs` — the tokens of the text `cs`; none if it ends inside a string. -/
def tokens? (cs : List Char) : Option (List Token) :=
  (cs.foldl Cutter.step ⟨#[], .idle⟩).finish

/-! ## Assembly -/

/-- `ofWord? line word` — the literal that a word is as a whole, if it is one: a truth value or a
number. -/
def ofWord? (line : Int) (word : String) : Option Literal :=
  if word = "true" then some (.boolean line true)
  else if word = "false" then some (.boolean line false)
  else (Decimal.readFloat? word.toList).map (.number line · word)

/-- What the assembly has: it waits for a value, for the first value of a vector or its end, or it
has just completed a value.  `stack` holds the items of the open vectors, innermost first and each
with its latest item first. -/
inductive Assembly where
  | expecting (stack : List (List Literal))
  | opened (stack : List (List Literal))
  | completed (done : Literal) (stack : List (List Literal))

namespace Assembly

/-- `begin line stack t` — the assembly behind a token `t` that begins a value. -/
def begin (line : Int) (stack : List (List Literal)) : Token → Option Assembly
  | .opening => some (.opened ([] :: stack))
  | .quoted value => some (.completed (.string line value) stack)
  | .word word => (ofWord? line word).map (.completed · stack)
  | .closing | .comma => none

/-- `a.step line t` — the assembly behind one more token, if it may stand there.  A comma may not
stand in front of a closing bracket. -/
def step (line : Int) : Assembly → Token → Option Assembly
  | .expecting stack, t => begin line stack t
  | .opened (_ :: stack), .closing => some (.completed (.vector line []) stack)
  | .opened stack, t => begin line stack t
  | .completed done (items :: stack), .comma => some (.expecting ((done :: items) :: stack))
  | .completed done (items :: stack), .closing =>
    some (.completed (.vector line (done :: items).reverse) stack)
  | .completed .., _ => none

/-- `a.finish` — the literal at the end of the tokens: one value, and no vector open. -/
def finish : Assembly → Option Literal
  | .completed done [] => some done
  | _ => none

end Assembly

/-- `ofTokens? line ts` — the literal that the tokens `ts` form, if they form one. -/
def ofTokens? (line : Int) (ts : List Token) : Option Literal :=
  (ts.foldlM (Assembly.step line) (.expecting [])).bind Assembly.finish

/-- `read? line s` — the literal that the text `s` is, read on `line`; none when it is anything
else. -/
def read? (line : Int) (s : String) : Option Literal :=
  (tokens? s.toList).bind (ofTokens? line)

end SolidExport.Literal
