/-
Text encodings, and how the bytes of an input group into code units.

* `Encoding` — the closed set of encodings, with their written names;
* `Encoding.unitWidth`, `Encoding.littleEndian` — the shape of one code unit;
* `Encoding.assemble` — the code unit that a group of bytes stands for;
* `Encoding.unitBytes` — the bytes of a code unit.

Design notes: code units are natural numbers.  Only `assemble` has to know
that a unit is a 32-bit word, because it alone may be given too many bytes.
-/

namespace Tabular

/-- The encodings that text may be read and written in. -/
inductive Encoding
  /-- Announced by a byte order mark, UTF-8 where there is none. -/
  | unknown
  | latin1
  | utf8
  | utf16le
  | utf16be
  | utf32le
  | utf32be
  | ucs2le
  | ucs2be
  | ucs4le
  | ucs4be
  | windows1252
  deriving DecidableEq, Inhabited

namespace Encoding

/-- Every encoding, in the order in which they are listed. -/
def all : List Encoding :=
  [unknown, latin1, utf8, utf16le, utf16be, utf32le, utf32be, ucs2le, ucs2be, ucs4le, ucs4be,
    windows1252]

/-- The name under which an encoding is stored. -/
def name : Encoding → String
  | unknown => "unknown"
  | latin1 => "Latin1"
  | utf8 => "UTF8"
  | utf16le => "UTF16LE"
  | utf16be => "UTF16BE"
  | utf32le => "UTF32LE"
  | utf32be => "UTF32BE"
  | ucs2le => "UCS2LE"
  | ucs2be => "UCS2BE"
  | ucs4le => "UCS4LE"
  | ucs4be => "UCS4BE"
  | windows1252 => "windows_1252"

/-- The encoding of that name; the case of ASCII letters does not matter. -/
def ofName? (name : String) : Option Encoding :=
  all.find? fun e => e.name.toLower == name.toLower

/-- The number of bytes in one code unit. -/
def unitWidth : Encoding → Nat
  | unknown | latin1 | utf8 | windows1252 => 1
  | utf16le | utf16be | ucs2le | ucs2be => 2
  | utf32le | utf32be | ucs4le | ucs4be => 4

/-- Whether a code unit is a single byte. -/
def isSingleByte (e : Encoding) : Bool := e.unitWidth == 1

/-- Whether the bytes of a unit are stored with the least significant first. -/
def littleEndian : Encoding → Bool
  | utf16le | utf32le | ucs2le | ucs4le => true
  | _ => false

/-- Bytes in the order from most to least significant. -/
def bigEndian (e : Encoding) (bytes : List UInt8) : List UInt8 :=
  if e.littleEndian then bytes.reverse else bytes

/-- The code unit made of the given bytes; a unit is a 32-bit word, so of
more than four bytes only the four least significant count. -/
def assemble (e : Encoding) (bytes : List UInt8) : Nat :=
  (e.bigEndian bytes).foldl (fun unit b => (unit * 256 + b.toNat) % 0x100000000) 0

/-- The last `width` base-256 digits of `n`, most significant first. -/
def digits : (width n : Nat) → List UInt8
  | 0, _ => []
  | width + 1, n => digits width (n / 256) ++ [UInt8.ofNat n]

/-- The bytes that a code unit is stored as. -/
def unitBytes (e : Encoding) (unit : Nat) : List UInt8 :=
  e.bigEndian (digits e.unitWidth unit)

theorem unitWidth_pos (e : Encoding) : 0 < e.unitWidth := by
  cases e <;> decide

end Encoding

end Tabular
