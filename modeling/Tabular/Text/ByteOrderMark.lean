/-
Byte order marks: the bytes at the head of a text that announce its encoding.

* `ByteOrderMark.detect` — the mark that a text starts with;
* `Encoding.resolve` — the encoding to read a text in, and how many bytes of
  it are its mark.

The mark of UTF-16LE is the first half of that of UTF-32LE, so the four-byte
marks are looked for first.
-/
import Tabular.Text.Encoding

namespace Tabular

inductive ByteOrderMark
  | utf8
  | utf16le
  | utf16be
  | utf32le
  | utf32be
  deriving DecidableEq

namespace ByteOrderMark

def bytes : ByteOrderMark → List UInt8
  | utf8 => [0xEF, 0xBB, 0xBF]
  | utf16le => [0xFF, 0xFE]
  | utf16be => [0xFE, 0xFF]
  | utf32le => [0xFF, 0xFE, 0x00, 0x00]
  | utf32be => [0x00, 0x00, 0xFE, 0xFF]

/-- The number of bytes in the mark. -/
def size (mark : ByteOrderMark) : Nat := mark.bytes.length

/-- The encoding that the mark announces. -/
def encoding : ByteOrderMark → Encoding
  | utf8 => .utf8
  | utf16le => .utf16le
  | utf16be => .utf16be
  | utf32le => .utf32le
  | utf32be => .utf32be

/-- The mark of an encoding; the UCS encodings share those of UTF-16 and
UTF-32. -/
def ofEncoding? : Encoding → Option ByteOrderMark
  | .utf8 => some utf8
  | .utf16le | .ucs2le => some utf16le
  | .utf16be | .ucs2be => some utf16be
  | .utf32le | .ucs4le => some utf32le
  | .utf32be | .ucs4be => some utf32be
  | .unknown | .latin1 | .windows1252 => none

/-- The mark at the head of a text, the longest if there are two. -/
def detect (head : List UInt8) : Option ByteOrderMark :=
  [utf32be, utf32le, utf8, utf16be, utf16le].find? fun mark => mark.bytes.isPrefixOf head

end ByteOrderMark

/-- The encoding to read a text in and the number of bytes to pass over, from
the encoding asked for and the head of the text.  Where no encoding is asked
for the mark decides; where one is, a mark is passed over only if it is its
own. -/
def Encoding.resolve (asked : Encoding) (head : List UInt8) : Encoding × Nat :=
  match asked, ByteOrderMark.detect head with
  | .unknown, some mark => (mark.encoding, mark.size)
  | .unknown, none => (.utf8, 0)
  | e, some mark => (e, if ByteOrderMark.ofEncoding? e = some mark then mark.size else 0)
  | e, none => (e, 0)

end Tabular
