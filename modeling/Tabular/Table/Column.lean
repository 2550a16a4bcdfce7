/-
Columns: the cells of one column of a table, by row.

A column keeps its texts in blocks and, for each row that has a cell, a handle
on the text.  Texts are never moved or given up, so a handle stays good
whatever happens to the cells.

Design notes: the cells are in ascending order of row, each row once, so that
a row is found by bisection.  Only moving rows can break the order: rows are
counted round, so that a cell may be moved down past the last row that there
can be and up past the first, and the last row is never dropped but moved up
past others.  From then on a cell is found where the bisection looks for it.
-/
import Tabular.Table.Bisect
import Tabular.Table.Block
import Tabular.Table.Swaps

namespace Tabular

/-- Where a text is stored in a column. -/
inductive Handle
  /-- Nowhere: the text is empty. -/
  | empty
  /-- In that block, by offset and length in bytes. -/
  | stored (block offset length : Nat)
  deriving DecidableEq

/-- How a table stores texts. -/
structure TableConfig where
  /-- The capacity of a block in bytes. -/
  blockSize : Nat := 2048
  /-- Whether a text that does not fit a block gets one of its own size. -/
  oversized : Bool := true
  deriving DecidableEq

/-- Whether a text can be stored at all. -/
def TableConfig.admits (config : TableConfig) (value : String) : Bool :=
  value.isEmpty || config.oversized || value.utf8ByteSize < config.blockSize

/-- The highest row number that there can be. -/
def lastRow : Nat := 0xFFFFFFFFFFFFFFFF

/-- The row that is `count` rows below another.  Below the last row that there
can be comes the first. -/
def rowBelow (row count : Nat) : Nat := (row + count) % (lastRow + 1)

/-- The row that is `count` rows above another. -/
def rowAbove (row count : Nat) : Nat := (row + (lastRow + 1) - count) % (lastRow + 1)

theorem rowBelow_le (row count : Nat) : rowBelow row count ≤ lastRow :=
  Nat.le_of_lt_succ (Nat.mod_lt _ (Nat.succ_pos _))

theorem rowBelow_of_le {row count : Nat} (h : row + count ≤ lastRow) :
    rowBelow row count = row + count := Nat.mod_eq_of_lt (Nat.lt_succ_of_le h)

theorem rowAbove_of_le {row count : Nat} (hrow : row ≤ lastRow) (h : count ≤ row) :
    rowAbove row count = row - count := by
  rw [rowAbove, Nat.sub_add_comm h, Nat.add_mod_right]
  exact Nat.mod_eq_of_lt (by omega)

structure Column where
  blocks : Array Block
  /-- The rows that have a cell, with its handle. -/
  cells : Array (Nat × Handle)
  deriving DecidableEq

namespace Column

def empty : Column := ⟨#[], #[]⟩

/-- Stores a text in the last block, or in a new one if that is full. -/
def store (config : TableConfig) (value : String) (blocks : Array Block) :
    Handle × Array Block :=
  if value.isEmpty then (.empty, blocks)
  else
    let size := value.utf8ByteSize
    let last := blocks.size - 1
    match blocks[last]?.bind (·.room? size) with
    | some offset => (.stored last offset size, blocks.modify last (·.push value))
    | none =>
      let capacity := if config.oversized then max config.blockSize (size + 1) else config.blockSize
      (.stored blocks.size 0 size, blocks.push ((Block.empty capacity).push value))

/-- The row of the cell at a place. -/
def rowAt (cells : Array (Nat × Handle)) (place : Nat) : Nat := (cells[place]?.map Prod.fst).getD 0

/-- The place among the cells where that of `row` is, or would be. -/
def placeOf (cells : Array (Nat × Handle)) (row : Nat) : Nat :=
  bisect (rowAt cells) row 0 cells.size

/-- Gives a row its cell, in place of any that it had. -/
def setRow (cells : Array (Nat × Handle)) (row : Nat) (handle : Handle) :
    Array (Nat × Handle) :=
  let place := placeOf cells row
  if cells[place]?.any (·.1 == row) then cells.setIfInBounds place (row, handle)
  else cells.insertIdxIfInBounds place (row, handle)

/-- Puts a text into a row. -/
def add (config : TableConfig) (value : String) (row : Nat) : Column → Column
  | ⟨blocks, cells⟩ =>
    let (handle, blocks) := store config value blocks
    ⟨blocks, setRow cells row handle⟩

/-- Puts a text into a row; `none` if it cannot be stored. -/
def add? (c : Column) (config : TableConfig) (value : String) (row : Nat) : Option Column :=
  if config.admits value then some (add config value row c) else none

/-- The handle of the cell in a row. -/
def handle? (c : Column) (row : Nat) : Option Handle :=
  (c.cells[placeOf c.cells row]?).bind fun (r, h) => if r = row then some h else none

/-- The text of a handle, empty if there is none. -/
def resolve (c : Column) : Handle → String
  | .empty => ""
  | .stored block offset length =>
    ((c.blocks[block]?).bind fun b => b.get? offset length).getD ""

/-- The text of the cell in a row. -/
def get? (c : Column) (row : Nat) : Option String := (c.handle? row).map c.resolve

/-- The cells before that of `row`. -/
def cellsBefore (c : Column) (row : Nat) : Array (Nat × Handle) :=
  c.cells.take (placeOf c.cells row)

/-- The cells from that of `row` on. -/
def cellsFrom (c : Column) (row : Nat) : Array (Nat × Handle) :=
  c.cells.drop (placeOf c.cells row)

/-- Makes room for `count` rows at `row`. -/
def insertRows (c : Column) (row count : Nat) : Column :=
  { c with cells := c.cellsBefore row ++ (c.cellsFrom row).map fun (r, h) => (rowBelow r count, h) }

/-- Drops `count` rows from `row` on and moves up those after them.  The last
row that there can be is never dropped: it is moved up like those after. -/
def removeRows (c : Column) (row count : Nat) : Column :=
  let later := c.cellsFrom (min (row + count) lastRow)
  { c with cells := c.cellsBefore row ++ later.map fun (r, h) => (rowAbove r count, h) }

/-- The rows that have a cell. -/
def rows (c : Column) : List Nat := c.cells.toList.map Prod.fst

/-- The highest row that has a cell, which is that of the last cell. -/
def maxRow? (c : Column) : Option Nat := c.cells.back?.map Prod.fst

/-- The number of cells, empty ones included. -/
def size (c : Column) : Nat := c.cells.size

/-- The number of cells with a text that is not empty. -/
def nonEmptyCount (c : Column) : Nat := c.cells.countP fun (_, h) => h != .empty

/-- The number of bytes in use in the blocks. -/
def storageSize (c : Column) : Nat := c.blocks.foldr (fun b n => b.used + n) 0

/-- The rows that have a cell, with their texts. -/
def toList (c : Column) : List (Nat × String) :=
  c.cells.toList.map fun (r, h) => (r, c.resolve h)

/-- The handles of the first `rowCount` rows. -/
def dense (c : Column) (rowCount : Nat) : Array (Option Handle) :=
  c.cells.foldl (fun xs (r, h) => xs.setIfInBounds r (some h)) (Array.replicate rowCount none)

/-- The cells of an array of handles. -/
def ofDense (xs : Array (Option Handle)) : Array (Nat × Handle) :=
  xs.zipIdx.filterMap fun (h, r) => h.map fun h => (r, h)

/-- Swaps the cells of the first `rowCount` rows.  Cells of later rows do not
outlive a swap. -/
def swapRows (c : Column) (swaps : List (Nat × Nat)) (rowCount : Nat) : Column :=
  if c.cells.isEmpty || swaps.isEmpty then c
  else { c with cells := ofDense (applySwaps swaps (c.dense rowCount)) }

end Column

end Tabular
