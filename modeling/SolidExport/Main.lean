/-
  The command line.
-/
import SolidExport.CommandLine.Program

namespace SolidExport

/-- `diskCause e` — the cause of a system error, if it is one that a disk knows. -/
def diskCause : IO.Error → Option DiskCause
  | .noFileOrDirectory .. => some .missing
  | .inappropriateType .. => some .isFolder
  | _ => none

/-- `play script` — plays a script on the file system, and gives the exit code. -/
def play : Script → IO UInt32
  | .done none => return 0
  | .done (some ending) => do
    if let some text := ending.unsaid then IO.eprintln text
    return UInt32.ofNat ending.exitCode
  | .print .out text next => do
    IO.print text
    play next
  | .print .err text next => do
    IO.eprint text
    play next
  | .read path next => do
    let bytes ← (IO.FS.readBinFile path).toBaseIO
    match bytes with
    | .ok bytes => play (next (Text.ofUtf8 bytes))
    | .error e => stopped .reading path e
  | .write path content next => do
    let written ← (IO.FS.writeFile path content).toBaseIO
    match written with
    | .ok () => play next
    | .error e => stopped (.opening path) path e
where
  /-- Reports a file that cannot be used; a folder in its place is found by `action`. -/
  stopped (action : DiskAction) (path : String) (e : IO.Error) : IO UInt32 := do
    match diskCause e with
    | some .isFolder => IO.eprintln (DiskFault.mk .isFolder action).message
    | some cause => IO.eprintln (DiskFault.mk cause (.opening path)).message
    | none => IO.eprintln (toString e)
    return 1

end SolidExport

/-- Converts the file that the arguments name. -/
def main (arguments : List String) : IO UInt32 := do
  let folder ← IO.currentDir
  SolidExport.play (SolidExport.Program.ofArguments folder.toString arguments)
