/-
  File URLs.

  The URL of a path is the path with every byte escaped that is not plain in a URL.
-/
import SolidExport.Disk.Basic

namespace SolidExport

namespace FileUrl

/-- `hexDigit n` — the hexadecimal digit of a number below sixteen, in capitals. -/
def hexDigit (n : Nat) : Char := if n < 10 then Char.ofNat (48 + n) else Char.ofNat (55 + n)

/-- `escapeByte b` — the byte `b` as two digits behind a percent sign. -/
def escapeByte (b : UInt8) : List Char :=
  ['%', hexDigit (b.toNat / 16), hexDigit (b.toNat % 16)]

/-- `isPlain c` — whether the character `c` stands for itself in the path of a URL. -/
def isPlain (c : Char) : Bool :=
  0x20 < c.toNat && c.toNat < 0x7F && !("\"#%<>?[\\]^`\x7b|\x7d~".toList.contains c)

/-- `escapeChar c` — the character `c` in the path of a URL: itself, or each of its bytes
escaped. -/
def escapeChar (c : Char) : List Char :=
  if isPlain c then [c] else (String.singleton c).toUTF8.data.toList.flatMap escapeByte

/-- `ofPath path` — the URL of an absolute path. -/
def ofPath (path : String) : String :=
  "file://" ++ String.ofList (path.toList.flatMap escapeChar)

end FileUrl

/-- `d.isEntryPoint folder url entry` — whether a program was started as the module at `url`: the
path `entry` it was started by leads somewhere, and its real path has that URL. -/
def Disk.isEntryPoint (d : Disk) (folder : String) (url : String) (entry : Option String) :
    Except DiskFault Bool :=
  match entry.filter (d.leadsSomewhere folder) with
  | some path => (d.realPath folder path).map (FileUrl.ofPath · == url)
  | none => .ok false

end SolidExport
