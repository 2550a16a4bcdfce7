/-
The Windows-1252 code page: one character for each byte.

The lower half is ASCII and `A0 .. FF` are the code points of the same
number.  The thirty-two bytes between have a table of their own, in which the
five bytes that the code page leaves unassigned stand for the control
characters of the same number.
-/

namespace Tabular.Windows1252

/-- The characters of the bytes `80 .. 9F`. -/
def middle : List Char :=
  ['€', '\u0081', '‚', 'ƒ', '„', '…', '†', '‡', 'ˆ', '‰', 'Š', '‹', 'Œ', '\u008D', 'Ž', '\u008F',
    '\u0090', '‘', '’', '“', '”', '•', '–', '—', '˜', '™', 'š', '›', 'œ', '\u009D', 'ž', 'Ÿ']

/-- The character of a byte, given as a number below 256. -/
def char (byte : Nat) : Char :=
  if 0x80 ≤ byte ∧ byte < 0xA0 then (middle[byte - 0x80]?).getD '\uFFFD' else Char.ofNat byte

/-- The byte of a character, if the code page has one. -/
def byte? (c : Char) : Option Nat :=
  if c.toNat < 0x80 ∨ (0xA0 ≤ c.toNat ∧ c.toNat ≤ 0xFF) then some c.toNat
  else (middle.idxOf? c).map (0x80 + ·)

end Tabular.Windows1252
