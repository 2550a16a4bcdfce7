/-
Cells while they are read and when they are done.

* `Strategy` — what becomes of the characters of a cell, and which formats
  a strategy can serve;
* `CellBuffer` — the cell being read;
* `Cell` — a cell as it is handed over.
-/
import Tabular.Error
import Tabular.Format.Basic
import Tabular.Text.Lossy

namespace Tabular

/-- The bytes of an input from offset `start` up to offset `stop`. -/
structure Span where
  start : Nat
  stop : Nat
  deriving DecidableEq

/-- The bytes of a span. -/
def Span.slice (s : Span) (bytes : List UInt8) : List UInt8 :=
  (bytes.drop s.start).take (s.stop - s.start)

/-- A character and the bytes that it was read from. -/
structure Scanned where
  char : Char
  span : Span
  deriving DecidableEq

/-- What becomes of the characters of a cell. -/
inductive Strategy
  /-- Each code unit is a character, and is kept. -/
  | raw
  /-- Units are decoded into characters, which are kept. -/
  | decode
  /-- Only the span of the cell in the input is kept. -/
  | view
  /-- Nothing is kept. -/
  | discard
  deriving DecidableEq

/-- Checks that a strategy can serve a format.  A span can stand for a cell
only if the input stays in memory, nothing inside the cell is left out of its
text, and each byte is a unit. -/
def Strategy.check (s : Strategy) (f : Format) (e : Encoding) (inMemory : Bool) :
    Except Error Unit :=
  if s ≠ .view then .ok ()
  else if !inMemory then .error .viewOfStream
  else if f.enclosing ≠ .off then .error .viewWithEnclosing
  else if !e.isSingleByte then .error (.viewOfWideUnits e)
  else .ok ()

/-- A cell as it is handed over. -/
structure Cell where
  text : String
  /-- Whether it began with the quote. -/
  enclosed : Bool
  /-- How many bytes of the input it took, its terminator not counted. -/
  rawBytes : Nat
  /-- Where it lies in the input, if only that was kept. -/
  view : Option Span
  deriving DecidableEq

/-- The cell being read. -/
structure CellBuffer where
  /-- The characters kept so far, the latest first. -/
  chars : List Char
  view : Option Span
  rawBytes : Nat
  enclosed : Bool
  /-- The characters that count as whitespace at the start of a cell. -/
  whitespace : List Char
  deriving DecidableEq

namespace CellBuffer

/-- Nothing read; space and tab count as whitespace. -/
def empty : CellBuffer := ⟨[], none, 0, false, [' ', '\t']⟩

/-- Ready for the next cell. -/
def clear (b : CellBuffer) : CellBuffer :=
  { b with chars := [], view := none, rawBytes := 0, enclosed := false }

/-- Whether a character counts as whitespace at the start of a cell. -/
def isWhitespace (b : CellBuffer) (c : Char) : Bool := b.whitespace.contains c

/-- Adds a character, as the strategy has it. -/
def append (b : CellBuffer) (s : Strategy) (c : Scanned) : CellBuffer :=
  match s with
  | .raw | .decode => { b with chars := c.char :: b.chars }
  | .view =>
    match b.view with
    | none => { b with view := some c.span }
    | some span => { b with view := some { span with stop := c.span.stop } }
  | .discard => b

/-- Takes back the latest character, if it was kept.  A view is never taken
back: it is kept only where there are no quotes to remove. -/
def retract (b : CellBuffer) : CellBuffer := { b with chars := b.chars.tail }

/-- The cell, from the bytes that its view refers to and their encoding. -/
def toCell (b : CellBuffer) (viewed : List UInt8) (e : Encoding) : Cell where
  text := String.ofList <|
    match b.view with
    | some span => e.decodeBytes (span.slice viewed)
    | none => b.chars.reverse
  enclosed := b.enclosed
  rawBytes := b.rawBytes
  view := b.view

end CellBuffer

end Tabular
