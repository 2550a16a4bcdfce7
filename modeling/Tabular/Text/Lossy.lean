/-
The text of a run of bytes taken as a whole, as it is shown for a cell that
is only a range of the input.

In the byte-per-character encodings each byte is a character.  Everything else
is read as UTF-8, where each longest beginning of a well-formed sequence that
is not completed becomes one U+FFFD.  This differs from reading character by
character: a second byte that cannot follow its lead byte (`80` after `E0`,
say) ends the sequence at once here, and is taken into it there.
-/
import Tabular.Text.Decode

namespace Tabular

/-- A UTF-8 sequence of which some bytes have been read: the next byte must
lie in `low .. high`, and `more` bytes follow it. -/
structure Utf8Beginning where
  low : Nat
  high : Nat
  more : Nat
  code : Nat
  deriving DecidableEq

namespace Lossy

/-- Begins a sequence: the character of an ASCII byte, what a lead byte
requires, or U+FFFD. -/
def start (byte : Nat) : List Char × Option Utf8Beginning :=
  if byte ≤ 0x7F then ([scalar byte], none)
  else if 0xC2 ≤ byte ∧ byte ≤ 0xDF then ([], some ⟨0x80, 0xBF, 0, byte % 32⟩)
  else if 0xE0 ≤ byte ∧ byte ≤ 0xEF then
    ([], some ⟨if byte = 0xE0 then 0xA0 else 0x80, if byte = 0xED then 0x9F else 0xBF, 1,
      byte % 16⟩)
  else if 0xF0 ≤ byte ∧ byte ≤ 0xF4 then
    ([], some ⟨if byte = 0xF0 then 0x90 else 0x80, if byte = 0xF4 then 0x8F else 0xBF, 2,
      byte % 8⟩)
  else ([replacement], none)

/-- One byte more, after whatever has begun. -/
def advance (byte : Nat) : Option Utf8Beginning → List Char × Option Utf8Beginning
  | none => start byte
  | some b =>
    if b.low ≤ byte ∧ byte ≤ b.high then
      let code := b.code * 64 + byte % 64
      match b.more with
      | 0 => ([scalar code], none)
      | more + 1 => ([], some ⟨0x80, 0xBF, more, code⟩)
    else (replacement :: (start byte).1, (start byte).2)

/-- The characters of `bytes`, the first of which come after what has begun. -/
def utf8From : Option Utf8Beginning → List UInt8 → List Char
  | none, [] => []
  | some _, [] => [replacement]
  | b, byte :: bytes => (advance byte.toNat b).1 ++ utf8From (advance byte.toNat b).2 bytes

end Lossy

/-- The text of a run of bytes. -/
def Encoding.decodeBytes (e : Encoding) (bytes : List UInt8) : List Char :=
  match e with
  | windows1252 => bytes.map fun b => Windows1252.char b.toNat
  | latin1 => bytes.map fun b => Char.ofNat b.toNat
  | _ => Lossy.utf8From none bytes

end Tabular
