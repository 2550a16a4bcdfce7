/-
Reading delimited text by splitting its bytes.

Where a format has no quotes, trims nothing and has ASCII characters for
separator and line end, and each byte is a unit, every byte equal to one of
the two ends a cell.  Cells are then runs of bytes between such bytes, found
without decoding anything, and are handed over as views of the input.

* `Bytewise.split` — finds the cells;
* `Format.splitsBytes` — whether a format can be read like this;
* `Format.splitBytes` — the read.
-/
import Tabular.Read.Options

namespace Tabular

/-- The byte of an ASCII character. -/
def Delimiter.asciiByte? : Delimiter → Option UInt8
  | char c => if c.toNat < 0x80 then some (UInt8.ofNat c.toNat) else none
  | off | auto => none

namespace Bytewise

/-- The bytes that end cells. -/
structure Ends where
  separator : UInt8
  lineEnd : UInt8
  /-- Whether a carriage return before a line end belongs to it. -/
  folds : Bool
  deriving DecidableEq

/-- Whether a byte is part of a cell. -/
def Ends.isContent (d : Ends) (b : UInt8) : Bool := b != d.separator && b != d.lineEnd

/-- What of a run of bytes is the cell, when `b` comes after it.  If the same
byte is separator and line end, it is a separator. -/
def Ends.cellBytes (d : Ends) (run : List UInt8) (b : UInt8) : List UInt8 :=
  if d.folds ∧ b ≠ d.separator ∧ run.getLast? = some 13 then run.dropLast else run

/-- The cell made of the bytes at `position`. -/
def cellAt (e : Encoding) (position : Nat) (bytes : List UInt8) : Cell where
  text := String.ofList (e.decodeBytes bytes)
  enclosed := false
  rawBytes := bytes.length
  view := some ⟨position, position + bytes.length⟩

/-- Where the split stands. -/
structure Place where
  row : Nat
  column : Nat
  /-- The offset of the bytes that come next. -/
  position : Nat

/-- The account of the bytes read, which is brought up to date row by row. -/
structure Tally where
  /-- How far the account goes. -/
  accounted : Nat
  /-- The bytes accounted for. -/
  progress : Nat

/-- Nothing is accounted for, not even a byte order mark. -/
def Tally.zero : Tally := ⟨0, 0⟩

/-- Brings the account up to date at `position`. -/
def Tally.account (t : Tally) (position : Nat) : Tally :=
  ⟨position, t.progress + (position - t.accounted)⟩

/-- What comes out of a split. -/
structure Result where
  rows : Nat
  bytesRead : Nat
  stopped : Bool
  /-- The cells handed over, the latest first. -/
  handed : List Handed
  /-- The bytes accounted for. -/
  progress : Nat

/-- What comes out of a split that ends at `position`: the bytes that are not
accounted for yet, be they those of a row that was broken off, now are. -/
def Result.ended (rows position : Nat) (stopped : Bool) (handed : List Handed) (t : Tally) :
    Result where
  rows
  bytesRead := position
  stopped
  handed
  progress := (t.account position).progress

/-- Hands a cell over and heeds the verdict on it, unless the line is passed
over. -/
def present (judge : Judge) (p : Place) (c : Cell) (mode : LineMode) (handed : List Handed) :
    LineMode × List Handed :=
  match mode with
  | .handing => (.ofVerdict (judge p.row p.column c), ⟨p.row, p.column, c⟩ :: handed)
  | .skipping _ | .stopped => (mode, handed)

/-- Splits `rest`, the first cell of which stands at `p`. -/
def split (d : Ends) (e : Encoding) (judge : Judge) (p : Place) (mode : LineMode)
    (handed : List Handed) (t : Tally) (rest : List UInt8) : Result :=
  if rest.isEmpty && p.column == 0 then .ended p.row p.position false handed t
  else
    let run := rest.takeWhile d.isContent
    match _h : rest.dropWhile d.isContent with
    | [] =>
      -- The input ends the last cell, and there is no carriage return to drop.
      let q := present judge p (cellAt e p.position run) mode handed
      let position := p.position + run.length
      .ended (p.row + 1) position (q.1 == .stopped || q.1 == .skipping true) q.2
        (if q.1 = .stopped then t else t.account position)
    | b :: rest' =>
      let q := present judge p (cellAt e p.position (d.cellBytes run b)) mode handed
      let position := p.position + run.length + 1
      if q.1 = .stopped then .ended (p.row + 1) position true q.2 t
      else if b = d.separator then
        split d e judge ⟨p.row, p.column + 1, position⟩ q.1 q.2 t rest'
      else if q.1 = .skipping true then
        .ended (p.row + 1) position true q.2 (t.account position)
      else split d e judge ⟨p.row + 1, 0, position⟩ .handing q.2 (t.account position) rest'
termination_by rest.length
decreasing_by
  all_goals
    -- What follows the byte that ends the cell is shorter than `rest`.
    have := (List.dropWhile_sublist d.isContent (l := rest)).length_le
    rw [_h] at this
    simp only [List.length_cons] at this
    omega

/-- Splits `bytes` from offset `start` on. -/
def run (d : Ends) (e : Encoding) (judge : Judge) (start : Nat) (bytes : List UInt8) : Result :=
  let start := min start bytes.length
  split d e judge ⟨0, 0, start⟩ .handing [] .zero (bytes.drop start)

end Bytewise

namespace Format

/-- The bytes that end the cells of a format, if its separator and its line
end are ASCII characters. -/
def byteEnds? (f : Format) : Option Bytewise.Ends := do
  let separator ← f.separator.asciiByte?
  let lineEnd ← f.lineEnd.asciiByte?
  return ⟨separator, lineEnd, f.folds⟩

/-- Whether the cells of a format are the runs of bytes between those that end
cells. -/
def splitsBytes (f : Format) (e : Encoding) : Bool :=
  f.enclosing == .off && f.byteEnds?.isSome && !f.trims && e.isSingleByte

/-- What there is to say about a split. -/
def splitSummary (f : Format) (e : Encoding) (rows bytesRead : Nat) (stopped : Bool) :
    Summary where
  rows
  bytesRead
  stopped
  separator := f.separator
  lineEnd := f.lineEnd
  encoding := e
  bytewise := true

/-- Reads `bytes` from offset `start` on, which is after any byte order mark. -/
def splitBytes (f : Format) (e : Encoding) (judge : Judge) (start : Nat) (bytes : List UInt8) :
    Outcome :=
  match f.byteEnds? with
  | none => .failed .splitWithoutBytes
  | some d =>
    let r := Bytewise.run d e judge start bytes
    { handed := r.handed.reverse
      result := .ok (f.splitSummary e r.rows r.bytesRead r.stopped)
      progress := r.progress }

end Format

end Tabular
