/-
Sorting the rows of a table by the texts of one column.

Whole rows move: what stands side by side stays side by side.  Only the order
of handles changes; the texts stay where they are stored.

* `SortOrder` — an order of rows in which the cells of a column are sorted, of
  which there is more than one if rows compare equal;
* `Table.arrange` — brings the rows into an order;
* `Table.sortBy` — brings them into the one in which rows that compare equal
  stay in order.
-/
import Tabular.Table.Basic

namespace Tabular

/-- An order on cells, where a cell may be missing. -/
abbrev CellOrder := Option String → Option String → Ordering

namespace CellOrder

/-- An order by a key, in which missing cells come first. -/
def byKey {α : Type} (compareKeys : α → α → Ordering) (key : String → α) : CellOrder
  | none, none => .eq
  | none, some _ => .lt
  | some _, none => .gt
  | some a, some b => compareKeys (key a) (key b)

/-- By the code points of the texts. -/
def ascending : CellOrder := byKey compare id

/-- The same from last to first. -/
def descending : CellOrder := fun a b => ascending b a

/-- By the number of bytes. -/
def byLength : CellOrder := byKey compare String.utf8ByteSize

/-- By the code points, with ASCII letters in lower case. -/
def ignoringCase : CellOrder := byKey compare String.toLower

end CellOrder

/-- What sorting may bring the first `rowCount` rows into, by the cells of a
column: `rows` says which row comes to stand at each place.  Which of two rows
that compare equal comes first is left open. -/
structure SortOrder (c : Column) (rowCount : Nat) (order : CellOrder) (rows : List Nat) :
    Prop where
  perm : rows.Perm (List.range rowCount)
  sorted : rows.Pairwise fun a b => (order (c.get? a) (c.get? b)).isLE

namespace Table

/-- Brings the rows into an order that sorting them by a column has given:
`rows` says which row comes to stand at each place.  Fewer than two rows are
not sorted. -/
def arrange (t : Table) (column : Nat) (rows : List Nat) : Table :=
  if t.rowCount < 2 ∨ t.columnCount ≤ column then t
  else
    let swaps := swapSequence rows
    { t with columns := t.columns.map fun c => c.swapRows swaps t.rowCount }

/-- A sort order in which rows that compare equal stay in order. -/
def sortedRows (c : Column) (rowCount : Nat) (order : CellOrder) : List Nat :=
  let keys := (Array.range rowCount).map c.get?
  (List.range rowCount).mergeSort fun a b =>
    ((order (keys[a]?.getD none) (keys[b]?.getD none)).isLE)

/-- Sorts the rows by the cells of a column. -/
def sortBy (t : Table) (column : Nat) (order : CellOrder) : Table :=
  let c := (t.columns[column]?).getD .empty
  t.arrange column (sortedRows c t.rowCount order)

end Table

end Tabular
