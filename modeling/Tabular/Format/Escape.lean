/-
Characters in stored settings: escaped, so that each is visible.

A character is written `\xHH`, or `\x{H...}` beyond `FF`.  On reading there are
more forms: `\t`, `\n`, `\r`, `\\`, `\0`, `\uHHHH`, braces around one to six
digits, and any character but the backslash for itself.

No escaped form is the empty string or the word `auto`, which stand for no
character and for one to be detected.
-/

namespace Tabular.Escape

/-- The value of a hexadecimal digit of either case. -/
def hexDigit? (c : Char) : Option Nat :=
  if '0' ≤ c ∧ c ≤ '9' then some (c.toNat - '0'.toNat)
  else if 'a' ≤ c ∧ c ≤ 'f' then some (c.toNat - 'a'.toNat + 10)
  else if 'A' ≤ c ∧ c ≤ 'F' then some (c.toNat - 'A'.toNat + 10)
  else none

/-- The number that hexadecimal digits stand for, most significant first. -/
def hexNumber? (digits : List Char) : Option Nat :=
  digits.foldl (fun n c => n.bind fun n => (hexDigit? c).map (n * 16 + ·)) (some 0)

/-- The digits of a number in upper-case hexadecimal. -/
def hexDigits (n : Nat) : List Char := (Nat.toDigits 16 n).map Char.toUpper

/-- The character with the code point that the digits stand for. -/
def hexChar? (digits : List Char) : Option Char := do
  let code ← hexNumber? digits
  if code.isValidChar then some (Char.ofNat code) else none

/-- The escaped form of a character. -/
def escape (c : Char) : List Char :=
  if c.toNat ≤ 0xF then ['\\', 'x', '0'] ++ hexDigits c.toNat
  else if c.toNat ≤ 0xFF then ['\\', 'x'] ++ hexDigits c.toNat
  else ['\\', 'x', '\x7b'] ++ hexDigits c.toNat ++ ['\x7d']

/-- What stands before a closing brace at the end. -/
def beforeBrace? (cs : List Char) : Option (List Char) :=
  if cs.getLast? = some '\x7d' then some cs.dropLast else none

/-- The character that what follows a backslash stands for. -/
def afterBackslash? : List Char → Option Char
  | ['t'] => some '\t'
  | ['n'] => some '\n'
  | ['r'] => some '\r'
  | ['\\'] => some '\\'
  | ['0'] => some '\x00'
  | 'x' :: '\x7b' :: cs => do
    let digits ← beforeBrace? cs
    if 1 ≤ digits.length ∧ digits.length ≤ 6 then hexChar? digits else none
  | 'x' :: digits => if digits.length = 2 then hexChar? digits else none
  | 'u' :: digits => if digits.length = 4 then hexChar? digits else none
  | _ => none

/-- The character that an escaped form stands for. -/
def unescape? : List Char → Option Char
  | '\\' :: cs => afterBackslash? cs
  | [c] => some c
  | _ => none

end Tabular.Escape
