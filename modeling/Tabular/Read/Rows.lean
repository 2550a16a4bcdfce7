/-
Rows of texts, collected from the cells that a read hands over.

A cell goes to the end of its row.  Rows that come before the first cell of a
later one are empty, and so are cells before the first of a later column.
-/
import Tabular.Read.Options

namespace Tabular

/-- Rows of texts. -/
abbrev Rows := Array (Array String)

namespace Rows

/-- An array that is at least `size` long, filled up with `x`. -/
def padded {α : Type} (xs : Array α) (size : Nat) (x : α) : Array α :=
  xs ++ Array.replicate (size - xs.size) x

/-- Adds a cell to its row. -/
def add (rows : Rows) (h : Handed) : Rows :=
  (padded rows (h.row + 1) #[]).modify h.row fun cells =>
    (padded cells h.column "").push h.cell.text

/-- The rows of the cells handed over, after those there were. -/
def addAll (rows : Rows) (handed : List Handed) : Rows := handed.foldl add rows

end Rows

end Tabular
