/-
Formats of delimited text.

* `Delimiter` — a character that has a role, none, or one to be detected;
* `Dialect` — what a reader has to know to find the cells of a text, with
  the two questions that it asks of every character (`terminator?`, `opens?`);
* `Format` — a dialect together with what concerns writing and the encoding.

Detection is learning: the first character that may take a role that is to be
detected takes it for good, so the answer to either question is a dialect.
-/
import Std.Data.ExtTreeMap
import Tabular.Text.Encoding

namespace Tabular

/-- Who plays the part of the separator, the quote or the line end. -/
inductive Delimiter
  /-- That character. -/
  | char (c : Char)
  /-- Nobody: the format has no such thing. -/
  | off
  /-- The first candidate seen. -/
  | auto
  deriving DecidableEq

namespace Delimiter

/-- The character, where it is known. -/
def char? : Delimiter → Option Char
  | char c => some c
  | off | auto => none

def ofOption : Option Char → Delimiter
  | some c => char c
  | none => off

/-- Whether `c` plays the part, given who may be detected in it. -/
def accepts (candidates : List Char) (d : Delimiter) (c : Char) : Bool :=
  match d with
  | char x => x == c
  | off => false
  | auto => candidates.contains c

/-- The characters detected as a separator. -/
def separatorCandidates : List Char := [',', ';', '\t', '\x1F']

/-- The characters detected as a quote, at the start of a cell. -/
def enclosingCandidates : List Char := ['"', '\'']

/-- The characters detected as a line end. -/
def lineEndCandidates : List Char := ['\n', '\r']

end Delimiter

/-- What separates one cell from the next. -/
inductive Terminator
  | separator
  | lineEnd
  deriving DecidableEq

/-- How the cells of a text are delimited. -/
structure Dialect where
  separator : Delimiter
  /-- The quote that may surround a cell. -/
  enclosing : Delimiter
  lineEnd : Delimiter
  /-- Whether whitespace at the start of a cell is dropped. -/
  trims : Bool
  /-- Whether a carriage return before a line feed is a character of its own. -/
  keepsCrLf : Bool
  deriving DecidableEq

namespace Dialect

/-- Whether CR LF is read as one line feed, which it is only where a line feed
is or may become the line end. -/
def folds (d : Dialect) : Bool :=
  !d.keepsCrLf && (d.lineEnd == .char '\n' || d.lineEnd == .auto)

/-- Whether a character ends a cell, and what is known once it has.  A
character that may be either is a separator. -/
def terminator? (d : Dialect) (c : Char) : Option (Terminator × Dialect) :=
  if d.separator.accepts Delimiter.separatorCandidates c then
    some (.separator, { d with separator := .char c })
  else if d.lineEnd.accepts Delimiter.lineEndCandidates c then
    some (.lineEnd, { d with lineEnd := .char c })
  else none

/-- Whether a character at the start of a cell opens a quote, and what is
known once it has. -/
def opens? (d : Dialect) (c : Char) : Option Dialect :=
  if d.enclosing.accepts Delimiter.enclosingCandidates c then
    some { d with enclosing := .char c }
  else none

end Dialect

/-- What a writer puts between two rows. -/
inductive LineEnding
  | lf
  | crlf
  | cr
  deriving DecidableEq

namespace LineEnding

def all : List LineEnding := [lf, crlf, cr]

def text : LineEnding → String
  | lf => "\n"
  | crlf => "\r\n"
  | cr => "\r"

/-- The character that a reader sees: CR LF is folded into a line feed. -/
def readChar : LineEnding → Char
  | lf | crlf => '\n'
  | cr => '\r'

/-- The name under which a line ending is stored. -/
def name : LineEnding → String
  | lf => "n"
  | crlf => "rn"
  | cr => "r"

def ofName? (name : String) : Option LineEnding := all.find? fun e => e.name == name

end LineEnding

/-- Texts under names. -/
abbrev StringMap := Std.ExtTreeMap String String

/-- A format of delimited text. -/
structure Format extends Dialect where
  /-- What is written between rows. -/
  lineEnding : LineEnding
  /-- The encoding; where it is unknown, a byte order mark decides. -/
  encoding : Encoding
  /-- Whether a byte order mark is written. -/
  writesMark : Bool
  /-- Further settings, of no concern to reading and writing. -/
  properties : StringMap
  deriving DecidableEq

namespace Format

/-- A format in which nothing is detected. -/
def fixed (separator : Char) (enclosing : Option Char) (lineEnd : Char) : Format where
  separator := .char separator
  enclosing := .ofOption enclosing
  lineEnd := .char lineEnd
  trims := false
  keepsCrLf := false
  lineEnding := if lineEnd = '\r' then .cr else .lf
  encoding := .unknown
  writesMark := false
  properties := ∅

/-- Comma separated values. -/
def csv : Format := fixed ',' (some '"') '\n'

/-- Tab separated values. -/
def tsv : Format := fixed '\t' (some '"') '\n'

/-- Values between semicolons. -/
def semicolon : Format := fixed ';' (some '"') '\n'

/-- Values between commas, with no quotes. -/
def bare : Format := fixed ',' none '\n'

/-- The format with that line ending, and the line end that it is read as. -/
def withLineEnding (f : Format) (e : LineEnding) : Format :=
  { f with lineEnding := e, lineEnd := .char e.readChar }

/-- The format with one more property. -/
def withProperty (f : Format) (name value : String) : Format :=
  { f with properties := f.properties.insert name value }

/-- Whether anything is left to be detected. -/
def detects (f : Format) : Bool :=
  f.separator == .auto || f.enclosing == .auto || f.lineEnd == .auto

end Format

end Tabular
