/-
  Signatures: `tag(parameters)`.

  The tag is what stands before the first parenthesis.  The parameters reach from there to the last
  closing parenthesis, behind which nothing but white space may stand.  A signature without
  parentheses has no parameters.
-/
import SolidExport.Params

namespace SolidExport

/-- A tag and its parameters, as they are read from the text of a statement. -/
structure Signature where
  tag : String
  params : Params

namespace Signature

/-- `startsTag c` — whether the character `c` may begin a tag. -/
def startsTag (c : Char) : Bool := c.isAlpha || c == '_' || c == '$'

/-- `continuesTag c` — whether the character `c` may stand inside a tag. -/
def continuesTag (c : Char) : Bool := startsTag c || isDigit c

/-- `isTag tag` — whether a text is a tag: ASCII letters, digits, `_` and `$`, not starting with a
digit. -/
def isTag (tag : String) : Bool :=
  match tag.toList with
  | [] => false
  | c :: cs => startsTag c && cs.all continuesTag

/-- `tagOf signature` — the text before the first parenthesis, without white space around it.  It
need not be a tag: this is also what a fault calls the statement by. -/
def tagOf (signature : String) : String :=
  String.ofList (Text.trim (signature.toList.takeWhile (· != '(')))

/-- `location line signature` — the place of a signature that begins on `line`. -/
def location (line : Int) (signature : String) : Location :=
  ⟨line, tagOf signature, signature⟩

/-- `splitAtLast? cs` — the text `cs` up to its last closing parenthesis, and the text behind it.
There is none without such a parenthesis. -/
def splitAtLast? (cs : List Char) : Option (List Char × List Char) :=
  match cs.reverse.dropWhile (· != ')') with
  | [] => none
  | _ :: before => some (before.reverse, (cs.reverse.takeWhile (· != ')')).reverse)

/-- `read line signature` — reads the signature of a statement that begins on `line`.  Its
parameters are never refused: what is no parameter is left out. -/
def read (line : Int) (signature : String) : Except Fault Signature :=
  let tag := tagOf signature
  if isTag tag then
    match signature.toList.dropWhile (· != '(') with
    | [] => .ok ⟨tag, .empty⟩
    | _ :: rest =>
      match splitAtLast? rest with
      | some (list, behind) =>
        if behind.all Text.isBlank then .ok ⟨tag, Params.read line (String.ofList list)⟩
        else .error (.located (location line signature) .unbalancedParentheses)
      | none => .error (.located (location line signature) .unbalancedParentheses)
  else .error (.unlocated (.invalidStatement line signature))

end Signature

end SolidExport
