/-
JSON values, and the texts that stand for them.

* `Json` — the values;
* `Json.parse?` — the value that a text stands for.

The grammar is the strict one: four kinds of white space, no comma before a
closing bracket, nothing after the value.  An escape in a string may name half
of a surrogate pair.  If the other half is missing the string is well formed
but stands for no text, and only who wants its text has to mind.

Design notes: the parser is bounded by the number of characters, because each
call of one of its functions by another leaves at least one behind.
-/
import Tabular.Format.Escape

namespace Tabular

inductive Json where
  | null
  | bool (value : Bool)
  /-- A number, as it is written. -/
  | number (literal : String)
  /-- A string and its text, if it has one. -/
  | string (text : Option String)
  | array (items : List Json)
  /-- An object, with its members in the order of the text. -/
  | object (members : List (Option String × Json))

namespace Json.Parse

/-- A parser of something at the head of a text. -/
abbrev Parser (α : Type) := List Char → Option (α × List Char)

/-- The rest of a text after white space. -/
def skipSpace (cs : List Char) : List Char :=
  cs.dropWhile fun c => c == ' ' || c == '\t' || c == '\n' || c == '\r'

/-- The rest of a text that begins with the word. -/
def word (w : String) (cs : List Char) : Option (List Char) := w.toList.isPrefixOf? cs

/-- The longest run of digits. -/
def digits (cs : List Char) : List Char × List Char :=
  (cs.takeWhile Char.isDigit, cs.dropWhile Char.isDigit)

/-- At least one digit. -/
def someDigits : Parser (List Char) := fun cs =>
  match digits cs with
  | ([], _) => none
  | (ds, rest) => some (ds, rest)

/-- The part of a number before any point: a zero, or digits that do not begin
with one. -/
def integerPart : Parser (List Char)
  | '0' :: cs => if (digits cs).1.isEmpty then some (['0'], cs) else none
  | cs => someDigits cs

/-- A point and digits, or nothing. -/
def fractionPart : Parser (List Char)
  | '.' :: cs => (someDigits cs).map fun (ds, rest) => ('.' :: ds, rest)
  | cs => some ([], cs)

/-- A sign, or nothing. -/
def sign : List Char → List Char × List Char
  | '+' :: cs => (['+'], cs)
  | '-' :: cs => (['-'], cs)
  | cs => ([], cs)

/-- A power of ten, or nothing. -/
def exponentPart : Parser (List Char)
  | [] => some ([], [])
  | c :: cs =>
    if c = 'e' ∨ c = 'E' then
      let (s, cs) := sign cs
      (someDigits cs).map fun (ds, rest) => (c :: s ++ ds, rest)
    else some ([], c :: cs)

/-- A number. -/
def number : Parser Json := fun cs => do
  let (minus, cs) := match cs with
    | '-' :: cs => (['-'], cs)
    | cs => ([], cs)
  let (whole, cs) ← integerPart cs
  let (fraction, cs) ← fractionPart cs
  let (exponent, cs) ← exponentPart cs
  return (.number (String.ofList (minus ++ whole ++ fraction ++ exponent)), cs)

/-- The code unit that what follows a backslash stands for. -/
def escapedUnit : Parser Nat
  | '"' :: cs => some ('"'.toNat, cs)
  | '\\' :: cs => some ('\\'.toNat, cs)
  | '/' :: cs => some ('/'.toNat, cs)
  | 'b' :: cs => some (0x08, cs)
  | 'f' :: cs => some (0x0C, cs)
  | 'n' :: cs => some (0x0A, cs)
  | 'r' :: cs => some (0x0D, cs)
  | 't' :: cs => some (0x09, cs)
  | 'u' :: a :: b :: c :: d :: cs => (Escape.hexNumber? [a, b, c, d]).map fun n => (n, cs)
  | _ => none

/-- The code points and surrogates of a string, up to its closing quote. -/
def stringUnits : Nat → Parser (List Nat)
  | 0, _ => none
  | _ + 1, [] => none
  | _ + 1, '"' :: cs => some ([], cs)
  | n + 1, '\\' :: cs => do
    let (unit, cs) ← escapedUnit cs
    let (units, cs) ← stringUnits n cs
    return (unit :: units, cs)
  | n + 1, c :: cs =>
    if c.toNat < 0x20 then none
    else do
      let (units, cs) ← stringUnits n cs
      return (c.toNat :: units, cs)

/-- The text of code points and surrogates, if each surrogate has its other
half next to it. -/
def textOfUnits? : List Nat → Option (List Char)
  | [] => some []
  | [unit] => if unit.isValidChar then some [Char.ofNat unit] else none
  | unit :: low :: units =>
    if unit.isValidChar then (textOfUnits? (low :: units)).map (Char.ofNat unit :: ·)
    else if 0xD800 ≤ unit ∧ unit ≤ 0xDBFF ∧ 0xDC00 ≤ low ∧ low ≤ 0xDFFF then
      (textOfUnits? units).map
        (Char.ofNat (0x10000 + (unit - 0xD800) * 1024 + (low - 0xDC00)) :: ·)
    else none

/-- A string, after its opening quote. -/
def stringText : Parser (Option String) := fun cs => do
  let (units, rest) ← stringUnits (cs.length + 1) cs
  return ((textOfUnits? units).map String.ofList, rest)

mutual

/-- A value. -/
def value : Nat → Parser Json
  | 0, _ => none
  | n + 1, cs =>
    match skipSpace cs with
    | '"' :: cs => (stringText cs).map fun (text, rest) => (.string text, rest)
    | '[' :: cs =>
      match skipSpace cs with
      | ']' :: rest => some (.array [], rest)
      | cs => (items n cs).map fun (xs, rest) => (.array xs, rest)
    | '\x7b' :: cs =>
      match skipSpace cs with
      | '\x7d' :: rest => some (.object [], rest)
      | cs => (members n cs).map fun (ms, rest) => (.object ms, rest)
    | 'n' :: cs => (word "ull" cs).map fun rest => (.null, rest)
    | 't' :: cs => (word "rue" cs).map fun rest => (.bool true, rest)
    | 'f' :: cs => (word "alse" cs).map fun rest => (.bool false, rest)
    | cs => number cs

/-- The items of an array, of which there is at least one, and its closing
bracket. -/
def items : Nat → Parser (List Json)
  | 0, _ => none
  | n + 1, cs => do
    let (x, cs) ← value n cs
    match skipSpace cs with
    | ']' :: rest => some ([x], rest)
    | ',' :: cs =>
      let (xs, rest) ← items n cs
      some (x :: xs, rest)
    | _ => none

/-- The members of an object, of which there is at least one, and its closing
brace. -/
def members : Nat → Parser (List (Option String × Json))
  | 0, _ => none
  | n + 1, cs =>
    match skipSpace cs with
    | '"' :: cs => do
      let (name, cs) ← stringText cs
      match skipSpace cs with
      | ':' :: cs =>
        let (x, cs) ← value n cs
        match skipSpace cs with
        | '\x7d' :: rest => some ([(name, x)], rest)
        | ',' :: cs =>
          let (ms, rest) ← members n cs
          some ((name, x) :: ms, rest)
        | _ => none
      | _ => none
    | _ => none

end

end Json.Parse

/-- The value that a text stands for. -/
def Json.parse? (text : String) : Option Json :=
  match Parse.value (text.length + 1) text.toList with
  | some (json, rest) => if (Parse.skipSpace rest).isEmpty then some json else none
  | none => none

end Tabular
