/-
Tables of texts, stored column by column.

A table is sparse: a row need not have a cell in every column.  A text can be
refused, if texts longer than a block are not admitted; the table is then left
as it was.
-/
import Tabular.Table.Column

namespace Tabular

structure Table where
  columns : Array Column
  config : TableConfig
  deriving DecidableEq

namespace Table

def empty (config : TableConfig) : Table := ⟨#[], config⟩

/-- Puts a text into a cell, in place of any that it had. -/
def add (value : String) (row column : Nat) : Table → Table
  | ⟨columns, config⟩ =>
    let columns := columns ++ Array.replicate (column + 1 - columns.size) .empty
    ⟨columns.modify column (·.add config value row), config⟩

/-- Puts a text into a cell, in place of any that it had; `none` if the text is
refused. -/
def add? (t : Table) (value : String) (row column : Nat) : Option Table :=
  if t.config.admits value then some (t.add value row column) else none

/-- The text of a cell. -/
def get? (t : Table) (row column : Nat) : Option String :=
  (t.columns[column]?).bind fun c => c.get? row

/-- The handle of a cell in its column. -/
def handle? (t : Table) (row column : Nat) : Option Handle :=
  (t.columns[column]?).bind fun c => c.handle? row

/-- Makes room for `count` rows at `row`. -/
def insertRows (t : Table) (row count : Nat) : Table :=
  { t with columns := t.columns.map fun c => c.insertRows row count }

/-- Drops `count` rows from `row` on and moves up those after them. -/
def removeRows (t : Table) (row count : Nat) : Table :=
  { t with columns := t.columns.map fun c => c.removeRows row count }

/-- Puts `count` empty columns before `column`, if there is such a column. -/
def insertColumns (t : Table) (column count : Nat) : Table :=
  if column < t.columns.size then
    { t with
      columns := t.columns.take column ++ Array.replicate count .empty ++ t.columns.drop column }
  else t

/-- Drops `count` columns from `column` on. -/
def eraseColumns (t : Table) (column count : Nat) : Table :=
  { t with columns := t.columns.take column ++ t.columns.drop (column + count) }

/-- Drops everything but the configuration. -/
def clear (t : Table) : Table := { t with columns := #[] }

/-- Gives back storage that is not needed, of which a table has none. -/
def shrink (t : Table) : Table := t

/-- One more than the highest of the rows in which the columns end. -/
def rowBound (t : Table) : Nat :=
  t.columns.foldl (fun n c => max n ((c.maxRow?.map (· + 1)).getD 0)) 0

/-- The same counted round: none if a column ends in the last row that there
can be. -/
def rowCount (t : Table) : Nat := t.rowBound % (lastRow + 1)

def columnCount (t : Table) : Nat := t.columns.size

/-- The number of cells with a text that is not empty. -/
def nonEmptyCount (t : Table) : Nat :=
  t.columns.foldr (fun c n => c.nonEmptyCount + n) 0

/-- The number of bytes that the texts take. -/
def storageSize (t : Table) : Nat :=
  t.columns.foldr (fun c n => c.storageSize + n) 0

/-- The rows that have a cell in that column, with their texts. -/
def rowsOf (t : Table) (column : Nat) : List (Nat × String) :=
  ((t.columns[column]?).map Column.toList).getD []

/-- The rows that have a cell, in ascending order. -/
def rowIndices (t : Table) : List Nat :=
  (t.columns.toList.flatMap Column.rows).mergeSort.eraseReps

/-- Puts texts into cells one after another, and counts those refused. -/
def addAll (t : Table) (cells : List (Nat × Nat × String)) : Table × Nat :=
  cells.foldl (fun (t, refused) (row, column, value) =>
    if t.config.admits value then (t.add value row column, refused) else (t, refused + 1)) (t, 0)

/-- The cells of a table, column by column, each with row, column and text. -/
def cells (t : Table) : List (Nat × Nat × String) :=
  t.columns.toList.zipIdx.flatMap fun (c, column) =>
    c.toList.map fun (row, value) => (row, column, value)

/-- Adds the cells of another table, `offset` rows further down, and counts
those refused. -/
def append (t other : Table) (offset : Nat) : Table × Nat :=
  t.addAll (other.cells.map fun (row, column, value) => (rowBelow row offset, column, value))

end Table

end Tabular
