/-
Writing tables as delimited text.

* `cellText` — a cell, between quotes where that is asked for;
* `Table.lines` — the rows of a table, each a line of text;
* `Table.write` — the bytes, in the pieces in which they are handed on;
* `Table.writeTo` — the same into a place of limited size.

Rows are written in order, as many as there are rows with a cell, and each has
all the columns of the table.  A line ending stands between rows, and not after
the last.
-/
import Tabular.Table.Basic
import Tabular.Error
import Tabular.Format.Basic
import Tabular.Text.ByteOrderMark
import Tabular.Text.Encode

namespace Tabular

/-- Which cells are written between quotes. -/
inductive Enclosure
  | never
  /-- Those that could be taken for something else without them. -/
  | ifNeeded
  | always
  deriving DecidableEq

namespace Format

/-- Whether a cell holds a character that ends cells or that encloses them. -/
def needsEnclosing (f : Format) (cell : List Char) : Bool :=
  cell.any fun c =>
    c == '\n' || c == '\r' || f.separator == .char c || f.enclosing == .char c ||
      f.lineEnd == .char c

/-- A cell between quotes; a quote inside it is written twice. -/
def enclose (q : Char) (cell : List Char) : List Char :=
  q :: (cell.flatMap fun c => if c = q then [q, q] else [c]) ++ [q]

/-- A cell as it is written. -/
def cellText (f : Format) (p : Enclosure) (cell : List Char) : List Char :=
  match f.enclosing.char?, p with
  | some q, .always => enclose q cell
  | some q, .ifNeeded => if f.needsEnclosing cell then enclose q cell else cell
  | _, _ => cell

end Format

namespace Table

/-- The cells of a row; those that are missing are empty. -/
def rowCells (t : Table) (row : Nat) : List String :=
  t.columns.toList.map fun c => (c.get? row).getD ""

/-- A row as it is written. -/
def line (t : Table) (f : Format) (p : Enclosure) (separator : Char) (row : Nat) : List Char :=
  [separator].intercalate ((t.rowCells row).map fun cell => f.cellText p cell.toList)

/-- The rows as they are written, each but the first after a line ending. -/
def lines (t : Table) (f : Format) (p : Enclosure) (separator : Char) : List (List Char) :=
  t.rowIndices.zipIdx.map fun (row, i) =>
    -- No line ending before the first row, wherever it stands in the table.
    (if i = 0 then [] else f.lineEnding.text.toList) ++ t.line f p separator row

/-- The encoding that a format is written in. -/
def writtenEncoding (f : Format) : Encoding :=
  if f.encoding = .unknown then .utf8 else f.encoding

/-- The byte order mark that a format is written with. -/
def writtenMark (f : Format) : List (List UInt8) :=
  if f.writesMark then
    ((ByteOrderMark.ofEncoding? (writtenEncoding f)).map ByteOrderMark.bytes).toList
  else []

/-- The bytes that a table is written as, in the pieces in which they are
handed on: a byte order mark if there is one, then row by row. -/
def write (t : Table) (f : Format) (p : Enclosure) : Except Error (List (List UInt8)) :=
  match f.separator.char? with
  | none => .error .writeWithoutSeparator
  | some separator =>
    if f.enclosing = .auto then .error .writeWithoutEnclosing
    else .ok (writtenMark f ++ (t.lines f p separator).map (writtenEncoding f).encode)

end Table

/-- Hands on pieces to where there is room for `room` bytes.  A piece that does
not fit fails as a whole. -/
def handOn (room : Nat) : List (List UInt8) → List UInt8 × Except Error Unit
  | [] => ([], .ok ())
  | piece :: pieces =>
    if piece.length ≤ room then
      let (bytes, result) := handOn (room - piece.length) pieces
      (piece ++ bytes, result)
    else ([], .error (.io .full))

/-- Writes a table to where there is room for so many bytes, or for any number.
Gives the bytes that arrived and whether all did. -/
def Table.writeTo (t : Table) (f : Format) (p : Enclosure) (room : Option Nat) :
    List UInt8 × Except Error Unit :=
  match t.write f p with
  | .error e => ([], .error e)
  | .ok pieces =>
    match room with
    | none => (pieces.flatten, .ok ())
    | some room => handOn room pieces

end Tabular
