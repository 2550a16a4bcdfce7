/-
Decoding: from code units to characters, one unit at a time.

* `start` — what the first unit of a character says;
* `Unfinished.feed` — what each further unit adds, or that it does not
  belong to the character;
* `decode` — the text of a whole list of units.

An ill-formed or truncated sequence reads as one U+FFFD.  The unit that
breaks a sequence is not part of it: it starts the next character, so a
separator or quote after a broken sequence is still seen.

Design notes: a character that is partly read is a value, `Unfinished`.  The
list decoder below and the reader of a byte source share `start` and `feed`
and differ only in where the next unit comes from.
-/
import Tabular.Text.Encoding
import Tabular.Text.Windows1252

namespace Tabular

/-- Stands for whatever cannot be decoded. -/
def replacement : Char := '\uFFFD'

/-- The character with that code point, if there is one. -/
def scalar? (code : Nat) : Option Char :=
  if code.isValidChar then some (Char.ofNat code) else none

/-- The character with that code point, U+FFFD where there is none. -/
def scalar (code : Nat) : Char := (scalar? code).getD replacement

/-- A character of which some units have been read. -/
inductive Unfinished
  /-- In UTF-8: `more` units are missing beyond the next one; the bits read
  so far make `code`, and a result below `least` is an overlong form. -/
  | utf8 (more code least : Nat)
  /-- In UTF-16: a high surrogate, waiting for its low surrogate. -/
  | surrogate (high : Nat)
  deriving DecidableEq

/-- What a unit leads to: a whole character, or one that needs more units. -/
inductive Decoded
  | char (c : Char)
  | more (u : Unfinished)
  deriving DecidableEq

namespace Decode

/-- Whether the lowest eight bits are those of a UTF-8 continuation unit. -/
def isContinuation (unit : Nat) : Bool := unit / 64 % 4 == 2

def startUtf8 (unit : Nat) : Decoded :=
  if unit ≤ 0x7F then .char (scalar unit)
  else if 0xC2 ≤ unit ∧ unit ≤ 0xDF then .more (.utf8 0 (unit % 32) 0x80)
  else if 0xE0 ≤ unit ∧ unit ≤ 0xEF then .more (.utf8 1 (unit % 16) 0x800)
  else if 0xF0 ≤ unit ∧ unit ≤ 0xF4 then .more (.utf8 2 (unit % 8) 0x10000)
  else .char replacement

def startUtf16 (unit : Nat) : Decoded :=
  if 0xD800 ≤ unit ∧ unit ≤ 0xDBFF then .more (.surrogate unit) else .char (scalar unit)

/-- Begins a character with its first unit. -/
def start : Encoding → Nat → Decoded
  | .unknown, unit | .utf8, unit => startUtf8 unit
  | .utf16le, unit | .utf16be, unit => startUtf16 unit
  | .windows1252, unit => .char (Windows1252.char (unit % 256))
  | .latin1, unit | .ucs2le, unit | .ucs2be, unit | .utf32le, unit | .utf32be, unit
  | .ucs4le, unit | .ucs4be, unit => .char (scalar unit)

end Decode

namespace Unfinished

/-- How many units are missing beyond the next one. -/
def missing : Unfinished → Nat
  | utf8 more _ _ => more
  | surrogate _ => 0

/-- Adds a unit; `none` if it does not belong to the character. -/
def feed : Unfinished → Nat → Option Decoded
  | utf8 more code least, unit =>
    if Decode.isContinuation unit then
      let code := code * 64 + unit % 64
      match more with
      | 0 => some (.char (if code < least then replacement else scalar code))
      | more + 1 => some (.more (.utf8 more code least))
    else none
  | surrogate high, unit =>
    if 0xDC00 ≤ unit ∧ unit ≤ 0xDFFF then
      some (.char (scalar (0x10000 + (high - 0xD800) * 1024 + (unit - 0xDC00))))
    else none

theorem missing_lt_of_feed {u v : Unfinished} {unit : Nat} (h : u.feed unit = some (.more v)) :
    v.missing < u.missing := by
  cases u with
  | surrogate high =>
    simp only [feed] at h
    split at h <;> simp at h
  | utf8 more code least =>
    simp only [feed] at h
    split at h
    · cases more <;> simp at h
      subst h
      simp [missing]
    · simp at h

end Unfinished

namespace Decode

/-- The characters that are complete after a step, and what is left over. -/
def emit : Decoded → List Char × Option Unfinished
  | .char c => ([c], none)
  | .more u => ([], some u)

/-- One unit more, after whatever is unfinished. -/
def advance (e : Encoding) (unit : Nat) : Option Unfinished → List Char × Option Unfinished
  | none => emit (start e unit)
  | some u =>
    match u.feed unit with
    | some d => emit d
    -- The unit breaks what is unfinished and begins anew.
    | none => (replacement :: (emit (start e unit)).1, (emit (start e unit)).2)

/-- The characters of `units`, the first of which come after an unfinished
character. -/
def decodeFrom (e : Encoding) : Option Unfinished → List Nat → List Char
  | none, [] => []
  | some _, [] => [replacement]
  | u, unit :: units => (advance e unit u).1 ++ decodeFrom e (advance e unit u).2 units

end Decode

/-- The text of a list of code units. -/
def Encoding.decode (e : Encoding) (units : List Nat) : List Char := Decode.decodeFrom e none units

end Tabular
