/-
  Programs as trees of calls: their text, and the tree of nodes they stand for.

  A call is `tag(parameters)`, ended by a semicolon or followed by a body of calls in braces.  A
  parameter has a value and perhaps a name.  A value is a number, a truth value, a string or a
  vector of values.  The types carry their own well-formedness: an `Identifier` is a tag, a `Numeral`
  has digits where the grammar asks for them, and a `Mark` of a string is escaped where it must be.

  `print` writes a program without white space outside strings.  `Call.nodes` is the forest that it
  stands for: one node for each call, under the same parent and in the same order, with the
  parameters bound by `bindings`.
-/
import SolidExport.Node.Basic

namespace SolidExport.Source

/-! ## Numbers -/

/-- What may stand in front of the digits of a number or of an exponent: nothing, a plus or a
    minus. -/
inductive Sign where
  | unsigned
  | plus
  | minus
deriving DecidableEq, Repr

namespace Sign

def chars : Sign → List Char
  | .unsigned => []
  | .plus => ['+']
  | .minus => ['-']

def isMinus : Sign → Bool
  | .minus => true
  | _ => false

end Sign

/-- The power of ten behind a number: the letter, perhaps a sign, and at least one digit. -/
structure Exponent where
  capital : Bool
  sign : Sign
  digits : List Char
  all_digits : digits.all isDigit = true
  nonempty : digits ≠ []

namespace Exponent

def chars (e : Exponent) : List Char :=
  (if e.capital then 'E' else 'e') :: (e.sign.chars ++ e.digits)

def value (e : Exponent) : Int :=
  let n : Int := digitsValue 10 e.digits
  if e.sign.isMinus then -n else n

end Exponent

/-- A number as written: digits before the point, digits behind it if there is a point, and an
    exponent if there is one.  At least one digit stands beside the point. -/
structure Numeral where
  sign : Sign
  whole : List Char
  fraction : Option (List Char)
  exponent : Option Exponent
  whole_digits : whole.all isDigit = true
  fraction_digits : (fraction.getD []).all isDigit = true
  nonempty : whole ≠ [] ∨ fraction.getD [] ≠ []

namespace Numeral

/-- `unsignedChars n` — the characters of the number `n` behind its sign: the digits before the
    point, the point with the digits behind it, and the exponent, each where it is written. -/
def unsignedChars (n : Numeral) : List Char :=
  n.whole ++ (n.fraction.elim [] ('.' :: ·) ++ n.exponent.elim [] Exponent.chars)

def chars (n : Numeral) : List Char := n.sign.chars ++ n.unsignedChars

/-- `magnitude n` — the number `n` without its sign, as a decimal.  The digits on both sides of the
    point are one coefficient; each digit behind the point is a power of ten less. -/
def magnitude (n : Numeral) : Decimal :=
  ⟨digitsValue 10 (n.whole ++ n.fraction.getD []),
    n.exponent.elim 0 Exponent.value - (n.fraction.getD []).length⟩

/-- `toFloat n` — the double nearest to the number `n`.  The sign is put on at the end, so that `-0`
    keeps it. -/
def toFloat (n : Numeral) : Float :=
  if n.sign.isMinus then -n.magnitude.toFloat else n.magnitude.toFloat

end Numeral

/-! ## Values -/

/-- One character of a string as written.  A quote or a backslash must stand behind a backslash;
    any other character may. -/
inductive Mark where
  | bare (c : Char) (free : c ≠ '"' ∧ c ≠ '\\')
  | escaped (c : Char)

namespace Mark

def chars : Mark → List Char
  | .bare c _ => [c]
  | .escaped c => ['\\', c]

/-- `char m` — the character that is meant: the backslash in front of an escaped one is not part of
    it. -/
def char : Mark → Char
  | .bare c _ | .escaped c => c

end Mark

/-- `listed comma ts` — the texts `ts` in a row with `comma` between each two.  This is how the
    items of a vector and the parameters of a call are written. -/
def listed {α : Type} (comma : α) : List (List α) → List α
  | [] => []
  | t :: ts => t ++ ts.flatMap (comma :: ·)

/-- A value as written: what stands for a literal in the text of a program. -/
inductive Value where
  | number (n : Numeral)
  | boolean (b : Bool)
  | string (marks : List Mark)
  | vector (items : List Value)

namespace Value

mutual

def chars : Value → List Char
  | .number n => n.chars
  | .boolean b => (Literal.booleanText b).toList
  | .string marks => '"' :: (marks.flatMap Mark.chars ++ ['"'])
  | .vector items => '[' :: (listed ',' (allChars items) ++ [']'])

def allChars : List Value → List (List Char)
  | [] => []
  | v :: vs => v.chars :: allChars vs

end

mutual

/-- `literal line v` — the literal that the value `v` stands for when it is read on `line`.  The
    line is part of a literal, since its faults name it. -/
def literal (line : Int) : Value → Literal
  | .number n => .number line n.toFloat (String.ofList n.chars)
  | .boolean b => .boolean line b
  | .string marks => .string line (String.ofList (marks.map Mark.char))
  | .vector items => .vector line (literals line items)

def literals (line : Int) : List Value → List Literal
  | [] => []
  | v :: vs => v.literal line :: literals line vs

end

end Value

/-! ## Parameters -/

/-- The name of a call or of a parameter: ASCII letters, digits, `_` and `$`, with no digit in
    front. -/
structure Identifier where
  text : String
  isTag : Signature.isTag text = true

/-- A parameter as written, with a name in front of its value or without one. -/
structure Param where
  name : Option Identifier
  value : Value

namespace Param

def chars (p : Param) : List Char :=
  p.name.elim [] (fun name => name.text.toList ++ ['=']) ++ p.value.chars

/-- `boundName index p` — the name that the parameter `p` binds as number `index` of its list: its
    own, or the one that its position has. -/
def boundName (index : Nat) (p : Param) : String :=
  p.name.elim (Params.positionalName index) Identifier.text

end Param

/-- `bindings line params` — what the parameters of a call on `line` bind.  Each in turn binds its
    name, in the place of an earlier binding of that name. -/
def bindings (line : Int) (params : List Param) : Params :=
  params.zipIdx.foldl (fun ps (p, index) => ps.insert (p.boundName index) (p.value.literal line))
    .empty

/-- `lastBound? params name` — the value of the last of `params` that binds `name`.  Of several it
    is the one that counts. -/
def lastBound? (params : List Param) (name : String) : Option Value :=
  (params.zipIdx.reverse.find? fun (p, index) => p.boundName index == name).map (·.1.value)

/-! ## Programs -/

/-- A call as written, with the calls in its body.  A call without a body has none in it. -/
structure Call where
  tag : Identifier
  params : List Param
  body : List Call

/-- `lineEnds cs` — how many line ends `cs` has, which is how many lines further on the text behind
    it stands. -/
def lineEnds (cs : List Char) : Nat := cs.count '\n'

namespace Call

/-- `signature tag params` — the characters of a call in front of its body: the tag and the
    parameters in their parentheses. -/
def signature (tag : Identifier) (params : List Param) : List Char :=
  tag.text.toList ++ '(' :: (listed ',' (params.map Param.chars) ++ [')'])

mutual

def chars : Call → List Char
  | ⟨tag, params, body⟩ =>
    signature tag params ++ if body.isEmpty then [';'] else '\x7b' :: (allChars body ++ ['\x7d'])

def allChars : List Call → List Char
  | [] => []
  | c :: cs => c.chars ++ allChars cs

end

mutual

/-- `node level line c` — the node of the call `c`, if it is written on `line` and stands `level`
    bodies deep.  The calls in its body are one level deeper and begin on the line where its
    signature ends. -/
def node (level line : Nat) : Call → Node
  | ⟨tag, params, body⟩ =>
    ⟨⟨⟨String.ofList (signature tag params), level, line⟩, tag.text, bindings line params⟩, none,
      nodes (level + 1) (line + lineEnds (signature tag params)) body⟩

/-- `nodes level line cs` — the nodes of the calls `cs` in a row, the first of which is written on
    `line` and each other behind the one before it. -/
def nodes (level line : Nat) : List Call → List Node
  | [] => []
  | c :: cs => c.node level line :: nodes level (line + lineEnds c.chars) cs

end

end Call

/-- `print program` — the text of a program, with its calls one behind the other. -/
def print (program : List Call) : String := String.ofList (Call.allChars program)

/-- A brace in a string is text, a brace behind a signature opens a body. -/
example :
    print [⟨⟨"group", by decide⟩, [], [⟨⟨"text", by decide⟩,
      [⟨some ⟨"t", by decide⟩, .vector [.boolean true, .string [.escaped '"', .bare '\x7d' (by decide)]]⟩],
      []⟩]⟩] = "group()\x7btext(t=[true,\"\\\"\x7d\"]);\x7d" := by
  rfl

end SolidExport.Source
