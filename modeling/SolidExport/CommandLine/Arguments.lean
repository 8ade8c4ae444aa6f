/-
  The arguments of the command line.

  An option is written `-o value`, `-ovalue`, `--output value` or `--output=value`; one that takes no
  value only as `--dump`.  The last of several values counts.  Two dashes alone end the options.  Of
  the other arguments the first is the input, and further ones are ignored.

  The arguments are read to their end before an unknown option or a missing input is reported, but a
  missing value and the version are reported where they stand.
-/

namespace SolidExport

/-- What the arguments ask for.  The precision is kept as typed, since a dump does not look at
it. -/
structure Settings where
  input : Option String
  output : Option String
  tagMap : Option String
  skipEmpty : Bool
  precision : String
  dump : Bool
deriving DecidableEq, Repr

namespace Settings

/-- The settings before any argument. -/
def init : Settings := ⟨none, none, none, false, "12", false⟩

end Settings

/-- Why no settings came out. -/
inductive Refusal where
  | version
  | missingValue (option : String)
  | unknownOption (argument : String)
  | missingInput
  /-- The run itself ended with a message. -/
  | message (text : String)
deriving DecidableEq, Repr

namespace Refusal

/-- The version of the program. -/
def versionText : String := "0.1.0"

/-- `r.text` — what the refusal `r` says. -/
def text : Refusal → String
  | .version => versionText
  | .missingValue option => "error: option '" ++ option ++ "' argument missing"
  | .unknownOption argument => "error: unknown option '" ++ argument ++ "'"
  | .missingInput => "error: missing required argument 'input'"
  | .message text => text

/-- `r.exitCode` — the exit code of the program.  To be asked for the version is no failure. -/
def exitCode : Refusal → Nat
  | .version => 0
  | _ => 1

end Refusal

/-! ## Options -/

/-- The options that take a value. -/
inductive ValueOption where
  | output
  | tagMap
  | precision
deriving DecidableEq, Repr

namespace ValueOption

/-- `o.description` — how the option `o` is described where its value is missing. -/
def description : ValueOption → String
  | .output => "-o, --output <path>"
  | .tagMap => "-t, --tag-map <path>"
  | .precision => "-p, --precision <digits>"

/-- `o.assign value s` — the settings `s` with a value for the option `o`, over any it had. -/
def assign (o : ValueOption) (value : String) (s : Settings) : Settings :=
  match o with
  | .output => { s with output := some value }
  | .tagMap => { s with tagMap := some value }
  | .precision => { s with precision := value }

end ValueOption

/-- An option of the command line. -/
inductive CommandOption where
  | version
  | skipEmpty
  | dump
  | value (o : ValueOption)
deriving DecidableEq, Repr

namespace CommandOption

/-- `find? flag` — the option of a flag, short or long. -/
def find? : String → Option CommandOption
  | "-V" | "--version" => some .version
  | "--skip-empty" => some .skipEmpty
  | "--dump" => some .dump
  | "-o" | "--output" => some (.value .output)
  | "-t" | "--tag-map" => some (.value .tagMap)
  | "-p" | "--precision" => some (.value .precision)
  | _ => none

end CommandOption

/-! ## Arguments -/

/-- What one argument is. -/
inductive Argument where
  /-- The mark that ends the options. -/
  | terminator
  | option (o : CommandOption)
  /-- An option with its value in the same argument. -/
  | assigned (o : ValueOption) (value : String)
  | unknown
  | operand
deriving DecidableEq, Repr

namespace Argument

/-- `ofShort? cs` — a short option with text behind its letter.  What does not take a value does not
look at it. -/
def ofShort? (cs : List Char) : Option Argument :=
  match cs with
  | '-' :: letter :: c :: rest =>
    if letter = '-' then none
    else (CommandOption.find? (String.ofList ['-', letter])).map fun
      | .value o => .assigned o (String.ofList (c :: rest))
      | o => .option o
  | _ => none

/-- `ofLong? cs` — a long option with an equals sign, which only one that takes a value may have. -/
def ofLong? (cs : List Char) : Option Argument :=
  match cs with
  | '-' :: '-' :: rest =>
    let name := rest.takeWhile (· != '=')
    match name, rest.dropWhile (· != '=') with
    | _ :: _, '=' :: value =>
      match CommandOption.find? (String.ofList ('-' :: '-' :: name)) with
      | some (.value o) => some (.assigned o (String.ofList value))
      | _ => none
    | _, _ => none
  | _ => none

/-- `classify argument` — what an argument is, before it is known whether options have ended.  A
dash alone is an operand. -/
def classify (argument : String) : Argument :=
  match argument.toList with
  | ['-', '-'] => .terminator
  | '-' :: c :: rest =>
    match CommandOption.find? argument with
    | some o => .option o
    | none =>
      let cs := '-' :: c :: rest
      ((ofShort? cs).orElse fun _ => ofLong? cs).getD .unknown
  | _ => .operand

end Argument

/-- The settings so far, and the first argument that looks like an option and is none. -/
structure ArgumentReading where
  settings : Settings
  unknown : Option String
deriving DecidableEq, Repr

namespace ArgumentReading

/-- `r.operand argument` — takes an operand: the first one is the input. -/
def operand (r : ArgumentReading) (argument : String) : ArgumentReading :=
  { r with settings.input := r.settings.input.orElse fun _ => some argument }

/-- `r.finish` — the settings, if everything is known and there is an input. -/
def finish (r : ArgumentReading) : Except Refusal Settings :=
  match r.unknown, r.settings.input with
  | some argument, _ => .error (.unknownOption argument)
  | none, none => .error .missingInput
  | none, some _ => .ok r.settings

/-- `r.run arguments` — reads the arguments from left to right. -/
def run (r : ArgumentReading) : List String → Except Refusal ArgumentReading
  | [] => .ok r
  | argument :: rest =>
    match Argument.classify argument with
    | .terminator => .ok (rest.foldl operand r)
    | .option .version => .error .version
    | .option .skipEmpty => run { r with settings.skipEmpty := true } rest
    | .option .dump => run { r with settings.dump := true } rest
    | .option (.value o) =>
      match rest with
      | [] => .error (.missingValue o.description)
      | value :: rest => run { r with settings := o.assign value r.settings } rest
    | .assigned o value => run { r with settings := o.assign value r.settings } rest
    | .unknown => run { r with unknown := r.unknown.orElse fun _ => some argument } rest
    | .operand => run (r.operand argument) rest

end ArgumentReading

/-- `Settings.read arguments` — the settings that some arguments ask for. -/
def Settings.read (arguments : List String) : Except Refusal Settings :=
  ArgumentReading.run ⟨.init, none⟩ arguments >>= ArgumentReading.finish

end SolidExport
