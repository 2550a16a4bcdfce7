/-
A text between double quotes, with every character in it visible.

The quote and the backslash follow a backslash, the four commonest controls
have letters of their own, and whatever else is not plainly printable is given
by its code point in lower-case hexadecimal.  An apostrophe is left alone.
-/
import Tabular.Text.Printable

namespace Tabular.Quoted

/-- How a character is written between the quotes. -/
def char (c : Char) : String :=
  if c = '\x00' then "\\0"
  else if c = '\t' then "\\t"
  else if c = '\r' then "\\r"
  else if c = '\n' then "\\n"
  else if c = '\\' then "\\\\"
  else if c = '"' then "\\\""
  else if Printable.isPlain c then c.toString
  else "\\u\x7b" ++ String.ofList (Nat.toDigits 16 c.toNat) ++ "\x7d"

/-- The text in quotes. -/
def text (s : String) : String := "\"" ++ String.join (s.toList.map char) ++ "\""

end Tabular.Quoted
