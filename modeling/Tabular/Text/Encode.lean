/-
Encoding: from characters to bytes.

A character that the encoding cannot represent is written as a question mark,
so every text can be written in every encoding.
-/
import Tabular.Text.Encoding
import Tabular.Text.Windows1252

namespace Tabular

/-- The code units of a character in UTF-16. -/
def utf16Units (c : Char) : List Nat :=
  if c.toNat ≤ 0xFFFF then [c.toNat]
  else [0xD800 + (c.toNat - 0x10000) / 1024, 0xDC00 + (c.toNat - 0x10000) % 1024]

namespace Encoding

/-- Whether the encoding has a form for the character. -/
def represents (e : Encoding) (c : Char) : Bool :=
  match e with
  | latin1 => c.toNat ≤ 0xFF
  | windows1252 => (Windows1252.byte? c).isSome
  | ucs2le | ucs2be => c.toNat ≤ 0xFFFF
  | unknown | utf8 | utf16le | utf16be | utf32le | utf32be | ucs4le | ucs4be => true

/-- The bytes of a character that the encoding represents. -/
def charBytes (e : Encoding) (c : Char) : List UInt8 :=
  match e with
  | unknown | utf8 => String.utf8EncodeChar c
  | windows1252 => e.unitBytes ((Windows1252.byte? c).getD 0)
  | utf16le | utf16be => (utf16Units c).flatMap e.unitBytes
  | latin1 | ucs2le | ucs2be | utf32le | utf32be | ucs4le | ucs4be => e.unitBytes c.toNat

/-- The bytes of a character, those of `?` if the encoding has none for it. -/
def encodeChar (e : Encoding) (c : Char) : List UInt8 :=
  e.charBytes (if e.represents c then c else '?')

/-- The bytes of a text. -/
def encode (e : Encoding) (text : List Char) : List UInt8 := text.flatMap e.encodeChar

end Encoding

end Tabular
