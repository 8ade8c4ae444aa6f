/-
  Scripts: what a program does to the world, as data.

  A script reads files, writes files, prints, and ends.  What it does after a reading depends on what
  was read.  `Script.run` plays a script on a disk.
-/
import SolidExport.CommandLine.Arguments
import SolidExport.Disk.Basic
import SolidExport.Fault

namespace SolidExport

/-- Where a text is printed. -/
inductive Channel where
  | out
  | err
deriving DecidableEq, Repr

/-- How a program ends when it does not succeed. -/
inductive Ending where
  /-- With a message of its own, which it has printed. -/
  | refused (r : Refusal)
  /-- With a failure that nothing caught.  An endless one stands for a program that does not end. -/
  | failed (f : Failure)
  /-- With a file or folder that could not be used. -/
  | disk (f : DiskFault)

namespace Ending

/-- `e.unsaid` — what is left to be said at the end: a refusal has been printed, and a program that
does not end is silent. -/
def unsaid : Ending → Option String
  | .refused _ => none
  | .failed (.range (.endless _)) => none
  | .failed f => some f.message
  | .disk f => some f.message

/-- `e.exitCode` — the exit code: one, where none was chosen.  A program that does not end has none;
it is counted among those that fail. -/
def exitCode : Ending → Nat
  | .refused r => r.exitCode
  | .failed _ | .disk _ => 1

end Ending

/-- A program as data: what it does next, and what it does with what it has read. -/
inductive Script where
  | done (ending : Option Ending)
  | print (channel : Channel) (text : String) (next : Script)
  | read (path : String) (next : String → Script)
  | write (path content : String) (next : Script)

namespace Script

/-- `refuse r` — prints what the refusal `r` says and ends.  Only the version is no error. -/
def refuse (r : Refusal) : Script :=
  let channel := match r with
    | .version => Channel.out
    | _ => Channel.err
  .print channel (r.text ++ "\n") (.done (some (.refused r)))

/-- `fail f` — ends with a failure that nothing catches. -/
def fail (f : Failure) : Script := .done (some (.failed f))

/-- `warn lines next` — the script `next` behind some lines on the error channel. -/
def warn (lines : List String) (next : Script) : Script :=
  lines.foldr (fun line s => .print .err (line ++ "\n") s) next

end Script

/-- What playing a script leaves behind: the disk, all that was printed in its order, and the
ending. -/
structure Played where
  disk : Disk
  printed : List (Channel × String)
  ending : Option Ending

namespace Script

/-- `script.run folder d` — plays a script on the disk `d`, in a working folder.  A file that cannot
be read or written ends it. -/
def run (folder : String) (d : Disk) : Script → Played
  | .done ending => ⟨d, [], ending⟩
  | .print channel text next =>
    let p := run folder d next
    { p with printed := (channel, text) :: p.printed }
  | .read path next =>
    match d.read folder path with
    | .ok bytes => run folder d (next (Text.ofUtf8 bytes))
    | .error f => ⟨d, [], some (.disk f)⟩
  | .write path content next =>
    match d.write folder path content.toUTF8 with
    | .ok d' => run folder d' next
    | .error f => ⟨d, [], some (.disk f)⟩

end Script

/-! ## As a process -/

/-- What a process shows: its exit code and the two outputs. -/
structure ProcessResult where
  exitCode : Nat
  out : String
  err : String

namespace Played

/-- `p.textOn channel` — all that was printed on a channel. -/
def textOn (p : Played) (channel : Channel) : String :=
  String.join ((p.printed.filter (·.1 = channel)).map (·.2))

/-- `p.toProcess` — the run as a process: what was not said yet is printed at the end. -/
def toProcess (p : Played) : ProcessResult :=
  let unsaid := (p.ending.bind Ending.unsaid).map (· ++ "\n")
  ⟨(p.ending.map Ending.exitCode).getD 0, p.textOn .out, p.textOn .err ++ unsaid.getD ""⟩

end Played

end SolidExport
