/-
What is asked of a read, what a reader is told about it while it goes on, and
what comes out of it.
-/
import Tabular.Read.Cell

namespace Tabular

/-- What is asked of a read. -/
structure ReadOptions where
  /-- What becomes of the characters; where nothing is said they are decoded,
  or not looked at where cells can be split off as bytes. -/
  strategy : Option Strategy := none
  /-- Whether every character is to be looked at, whatever the format. -/
  characterwise : Bool := false
  /-- The size of the buffer before a stream. -/
  bufferSize : Nat := 8192
  /-- How many may share the work of loading a table. -/
  workers : Nat := 1
  /-- The least number of bytes worth a worker of its own. -/
  minimumChunk : Nat := 65536
  deriving DecidableEq

/-- What to do after a cell. -/
inductive Verdict
  | proceed
  /-- Pass over the other cells of the line. -/
  | skipLine
  /-- Stop at once. -/
  | stop
  /-- Pass over the other cells of the line, then stop. -/
  | skipLineThenStop
  deriving DecidableEq

namespace Verdict

def skips : Verdict → Bool
  | skipLine | skipLineThenStop => true
  | proceed | stop => false

def stops : Verdict → Bool
  | stop | skipLineThenStop => true
  | proceed | skipLine => false

end Verdict

/-- What becomes of the rest of a line. -/
inductive LineMode
  /-- Its cells are handed over. -/
  | handing
  /-- Its cells are passed over, and then the read may stop. -/
  | skipping (thenStop : Bool)
  /-- It is not read. -/
  | stopped
  deriving DecidableEq

/-- What becomes of the rest of a line after a verdict. -/
def LineMode.ofVerdict : Verdict → LineMode
  | .proceed => handing
  | .skipLine => skipping false
  | .skipLineThenStop => skipping true
  | .stop => stopped

/-- A verdict on each cell, given its row, its column and what is in it. -/
abbrev Judge := Nat → Nat → Cell → Verdict

/-- Going on after every cell. -/
def Judge.always : Judge := fun _ _ _ => .proceed

/-- A cell that was handed over, and where it stands. -/
structure Handed where
  row : Nat
  column : Nat
  cell : Cell
  deriving DecidableEq

/-- Where a reader is. -/
inductive Phase
  /-- Nothing of the cell has been kept. -/
  | seeking
  /-- In a cell that did not begin with a quote. -/
  | naked
  /-- Between the quotes of a cell. -/
  | enclosed
  /-- After the closing quote of a cell. -/
  | afterEnclosed
  /-- A separator ended the cell. -/
  | separator
  /-- A line end ended the cell. -/
  | lineEnd
  /-- The input has come to its end. -/
  | inputEnd
  /-- A verdict stopped the read. -/
  | stopped
  deriving DecidableEq

namespace Phase

/-- Whether the cell is complete. -/
def endsCell : Phase → Bool
  | separator | lineEnd | inputEnd | stopped => true
  | seeking | naked | enclosed | afterEnclosed => false

/-- Whether nothing more is to be read. -/
def isFinal : Phase → Bool
  | inputEnd | stopped => true
  | seeking | naked | enclosed | afterEnclosed | separator | lineEnd => false

end Phase

/-- What there is to say about a read that succeeded. -/
structure Summary where
  /-- The number of rows, those partly passed over included. -/
  rows : Nat
  /-- The number of bytes, a byte order mark included. -/
  bytesRead : Nat
  /-- Whether a verdict stopped the read. -/
  stopped : Bool
  /-- The separator at the end of the read, detected or not. -/
  separator : Delimiter
  /-- The line end at the end of the read, detected or not. -/
  lineEnd : Delimiter
  /-- The encoding that the input was read in. -/
  encoding : Encoding
  /-- Whether cells were split off as bytes, not looked at by character. -/
  bytewise : Bool
  deriving DecidableEq

/-- What comes out of a read. -/
structure Outcome where
  /-- The cells handed over, also those before a failure. -/
  handed : List Handed
  result : Except Error Summary
  /-- The bytes accounted for, row by row. -/
  progress : Nat

/-- What comes out of a read that failed before it began. -/
def Outcome.failed (e : Error) : Outcome := { handed := [], result := .error e, progress := 0 }

end Tabular
