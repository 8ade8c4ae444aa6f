/-
  Bytes read as UTF-8.

  The reader takes one byte at a time.  Inside a character it knows how many bytes are still owed and
  in which range the next one must be; a byte outside the range ends the character as malformed and
  is then read as the beginning of the next one.  Each malformed character, that is each longest run
  of bytes that some character begins with, is read as one U+FFFD.
-/
import SolidExport.Text.Utf16

namespace SolidExport.Text

/-- A character that is not complete: its value so far, the bytes owed behind the next one, and the
range of the next one. -/
structure Partial where
  value : Nat
  owed : Nat
  low : Nat
  high : Nat
deriving DecidableEq, Repr

/-- The state of the reader: the text read so far, and a character that is not complete. -/
structure Utf8 where
  text : String
  pending : Option Partial

namespace Utf8

/-- `s.first b` — the reader `s` behind a byte `b` at the beginning of a character.  It is the
character itself, or says how many bytes are owed, or begins none. -/
def first (s : Utf8) (b : Nat) : Utf8 :=
  let await := fun value owed low high => { s with pending := some ⟨value, owed, low, high⟩ }
  if b < 0x80 then ⟨s.text.push (Char.ofNat b), none⟩
  else if b < 0xC2 then ⟨s.text.push replacement, none⟩
  else if b < 0xE0 then await (b - 0xC0) 0 0x80 0xBF
  else if b < 0xF0 then
    -- the shortest form only, and no surrogates
    await (b - 0xE0) 1 (if b = 0xE0 then 0xA0 else 0x80) (if b = 0xED then 0x9F else 0xBF)
  else if b < 0xF5 then
    -- the shortest form only, and nothing above U+10FFFF
    await (b - 0xF0) 2 (if b = 0xF0 then 0x90 else 0x80) (if b = 0xF4 then 0x8F else 0xBF)
  else ⟨s.text.push replacement, none⟩

/-- `s.step byte` — the reader `s` behind one more byte.  A byte that does not go on with the
pending character ends it as malformed and begins the next. -/
def step (s : Utf8) (byte : UInt8) : Utf8 :=
  let b := byte.toNat
  match s.pending with
  | none => s.first b
  | some p =>
    if p.low ≤ b ∧ b ≤ p.high then
      let value := p.value * 0x40 + (b - 0x80)
      match p.owed with
      | 0 => ⟨s.text.push (Char.ofNat value), none⟩
      | owed + 1 => { s with pending := some ⟨value, owed, 0x80, 0xBF⟩ }
    else (Utf8.mk (s.text.push replacement) none).first b

/-- `s.finish` — the text at the end of the bytes, where a character that is not complete is
malformed. -/
def finish (s : Utf8) : String :=
  match s.pending with
  | none => s.text
  | some _ => s.text.push replacement

end Utf8

/-- `ofUtf8 bytes` — the text of some bytes.  Every file is read so, and none is refused for its
bytes. -/
def ofUtf8 (bytes : ByteArray) : String :=
  (bytes.data.toList.foldl Utf8.step ⟨"", none⟩).finish

end SolidExport.Text
