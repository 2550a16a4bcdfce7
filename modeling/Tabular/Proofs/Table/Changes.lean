/-
What a table keeps of the texts it is given, whatever is done to it.

* `Change` — a change of a table, the sorting of its rows included;
* `Account` — a table with the deposits of its columns;
* `Account.Balanced` — the books of all columns are in order, which every
  change keeps so;
* `Table.sound_changes` — the columns stay sound, and so their rows ascend,
  unless a row is moved down past the last that there can be, or rows past that
  are dropped and a cell stands in it;
* `Change.moves?`, `Table.movesAll?` — where a column stands after changes;
* `Table.changes_keep` — what is true of the columns of a table, and of the
  handles that it gave out, after any changes.

Design notes: rows are counted round, and the last row that there can be is not
dropped but moved up.  Either may bring a row past others.  That disturbs the
order of rows and nothing else, so the books are kept without it.  Sorting is
taken for what it comes to, which is any order of rows at all, so that nothing
here hangs on how the rows are compared.
-/
import Tabular.Proofs.Table.Deposits
import Tabular.Proofs.Table.Edits
import Tabular.Table.Sort

namespace Tabular

/-- A change of a table. -/
inductive Change
  | add (value : String) (row column : Nat)
  | insertRows (row count : Nat)
  | removeRows (row count : Nat)
  | insertColumns (column count : Nat)
  | eraseColumns (column count : Nat)
  /-- The cells of another table are added, so many rows further down. -/
  | append (other : Table) (offset : Nat)
  /-- The rows are put in the order that sorting them by a column has given,
  whatever that is. -/
  | arrange (column : Nat) (rows : List Nat)
  | clear
  | shrink

namespace Change

/-- The row that a text is put into, or that rows are dropped from, can be
numbered. -/
def Numbered : Change → Prop
  | add _ row _ => row ≤ lastRow
  | removeRows row _ => row ≤ lastRow
  | _ => True

/-- The order of rows is spared: none is moved down past the last that there
can be, and rows past that are not dropped while a cell stands in it. -/
def Spares (t : Table) : Change → Prop
  | insertRows row count => ∀ j, (t.columnAt j).HasRoom row count
  | removeRows row count =>
    row + count ≤ lastRow ∨ ∀ j, ∀ r ∈ (t.columnAt j).rows, r < lastRow
  | _ => True

/-- Where a column comes to stand, if it is kept. -/
def moves? (t : Table) (change : Change) (j : Nat) : Option Nat :=
  match change with
  | insertColumns column count =>
    if column < t.columnCount ∧ column ≤ j then some (j + count) else some j
  | eraseColumns column count =>
    if j < column then some j else if j < column + count then none else some (j - count)
  | clear => none
  | _ => some j

end Change

namespace Table

/-- What comes of a table.  A text that is refused changes nothing. -/
def change (t : Table) : Change → Table
  | .add value row column => (t.add? value row column).getD t
  | .insertRows row count => t.insertRows row count
  | .removeRows row count => t.removeRows row count
  | .insertColumns column count => t.insertColumns column count
  | .eraseColumns column count => t.eraseColumns column count
  | .append other offset => (t.append other offset).1
  | .arrange column rows => t.arrange column rows
  | .clear => t.clear
  | .shrink => t.shrink

/-- One change after another. -/
def changes (t : Table) : List Change → Table
  | [] => t
  | change :: changes => (t.change change).changes changes

/-- The order of rows is spared by every change. -/
def SparedBy (t : Table) : List Change → Prop
  | [] => True
  | change :: changes => change.Spares t ∧ (t.change change).SparedBy changes

/-- Where a column stands after the changes, if it is kept. -/
def movesAll? (t : Table) : List Change → Nat → Option Nat
  | [], j => some j
  | change :: changes, j => (change.moves? t j).bind ((t.change change).movesAll? changes)

/-! ### Columns by number -/

variable {t : Table}

theorem rowCount_le_lastRow (t : Table) : t.rowCount ≤ lastRow :=
  Nat.le_of_lt_succ (Nat.mod_lt _ (Nat.succ_pos _))

/-- Sorting swaps the same rows of all columns. -/
theorem exists_columnAt_arrange (t : Table) (column : Nat) (rows : List Nat) :
    ∃ swaps, ∀ j, (t.arrange column rows).columnAt j =
      (t.columnAt j).swapRows swaps t.rowCount := by
  have hnone : ∀ c : Column, c.swapRows [] t.rowCount = c := fun c => by simp [Column.swapRows]
  rw [arrange]
  split
  · exact ⟨[], fun j => (hnone _).symm⟩
  · exact ⟨_, columnAt_map t (Column.swapRows_empty ..)⟩

/-! ### Rows that ascend -/

/-- The columns stay sound where the order of rows is spared. -/
theorem sound_change (h : ∀ j, (t.columnAt j).Sound) {change : Change} (hrow : change.Numbered)
    (hspares : change.Spares t) (j : Nat) : ((t.change change).columnAt j).Sound := by
  cases change with
  | add value row column =>
    rw [Table.change, add?]
    split
    · rw [Option.getD_some, columnAt_add]
      split
      · exact (h j).add hrow
      · exact h j
    · exact h j
  | insertRows row count =>
    rw [Table.change, insertRows, columnAt_map t (Column.insertRows_empty row count)]
    exact (h j).insertRows (hspares j)
  | removeRows row count =>
    rw [Table.change, removeRows, columnAt_map t (Column.removeRows_empty row count)]
    rcases Nat.lt_or_ge lastRow (row + count) with hpast | hle
    · have hrows := hspares.resolve_left (Nat.not_le_of_lt hpast) j
      refine (h j).removeRows_of_lt_lastRow hrow hpast fun cell hcell => ?_
      exact hrows cell.1 (List.mem_map_of_mem hcell)
    · exact (h j).removeRows hle
  | insertColumns column count =>
    rw [Table.change]
    by_cases hlt : column < t.columns.size
    · rw [columnAt_insertColumns hlt]
      split
      · exact h j
      · split
        · exact Column.sound_empty
        · exact h _
    · rw [insertColumns, if_neg hlt]
      exact h j
  | eraseColumns column count =>
    rw [Table.change, columnAt_eraseColumns]
    split
    · exact h j
    · exact h _
  | append other offset =>
    rw [Table.change, columnAt_append]
    refine List.foldlRecOn _ _ (h j) fun _ hc entry hentry => hc.add ?_
    obtain ⟨cell, -, rfl⟩ := List.mem_map.mp hentry
    exact rowBelow_le ..
  | arrange column rows =>
    obtain ⟨swaps, harrange⟩ := exists_columnAt_arrange t column rows
    rw [Table.change, harrange]
    exact (h j).swapRows swaps t.rowCount_le_lastRow
  | clear => exact Column.sound_empty
  | shrink => exact h j

theorem sound_changes {changes : List Change} (h : ∀ j, (t.columnAt j).Sound)
    (hrows : ∀ change ∈ changes, change.Numbered) (hspared : t.SparedBy changes) (j : Nat) :
    ((t.changes changes).columnAt j).Sound := by
  induction changes generalizing t with
  | nil => exact h j
  | cons change changes ih =>
    rw [List.forall_mem_cons] at hrows
    exact ih (sound_change h hrows.1 hspared.1) hrows.2 hspared.2

end Table

/-! ### Tables with the deposits of their columns -/

/-- A table, and for each column the texts that it was given since it has been
there, the latest first, with the handles that they were given. -/
structure Account where
  table : Table
  deposits : Nat → List Deposit

namespace Account

variable {a : Account}

def blank (config : TableConfig) : Account := ⟨.empty config, fun _ => []⟩

/-- A text is put into a cell, if it is admitted. -/
def add (a : Account) (value : String) (row column : Nat) : Account :=
  match a.table.add? value row column with
  | none => a
  | some t =>
    let handle := (Column.store a.table.config value (a.table.columnAt column).blocks).1
    ⟨t, fun j => if column = j then ⟨value, handle⟩ :: a.deposits j else a.deposits j⟩

/-- The deposits go where their columns go. -/
def change (a : Account) : Change → Account
  | .add value row column => a.add value row column
  | .insertColumns column count =>
    ⟨a.table.insertColumns column count, fun j =>
      if a.table.columnCount ≤ column ∨ j < column then a.deposits j
      else if j < column + count then []
      else a.deposits (j - count)⟩
  | .eraseColumns column count =>
    ⟨a.table.eraseColumns column count, fun j =>
      if j < column then a.deposits j else a.deposits (j + count)⟩
  | .append other offset =>
    (other.cells.map (Table.lower offset)).foldl (fun a cell => a.add cell.2.2 cell.1 cell.2.1) a
  | .clear => blank a.table.config
  | change => ⟨a.table.change change, a.deposits⟩

/-- One change after another. -/
def changes (a : Account) (changes : List Change) : Account := changes.foldl change a

theorem table_add (a : Account) (value : String) (row column : Nat) :
    (a.add value row column).table = (a.table.add? value row column).getD a.table := by
  rw [add]
  cases a.table.add? value row column <;> rfl

theorem table_foldl_add (a : Account) (cells : List (Nat × Nat × String)) :
    (cells.foldl (fun a cell => a.add cell.2.2 cell.1 cell.2.1) a).table =
      (a.table.addAll cells).1 := by
  induction cells generalizing a with
  | nil => rfl
  | cons cell cells ih =>
    rw [List.foldl_cons, ih, table_add, Table.add?, Table.addAll_eq, Table.addAll_eq]
    by_cases hadmits : a.table.config.admits cell.2.2
    · rw [if_pos hadmits, Option.getD_some, List.filter_cons, if_pos hadmits]
      rfl
    · rw [if_neg hadmits, Option.getD_none, List.filter_cons, if_neg hadmits]

theorem table_change (a : Account) (change : Change) :
    (a.change change).table = a.table.change change := by
  cases change with
  | add value row column => exact table_add ..
  | append other offset => exact table_foldl_add ..
  | _ => rfl

theorem table_changes (a : Account) (changes : List Change) :
    (a.changes changes).table = a.table.changes changes := by
  induction changes generalizing a with
  | nil => rfl
  | cons change changes ih =>
    rw [Account.changes, List.foldl_cons, ← Account.changes, ih, table_change]
    rfl

/-! ### The books of all columns -/

/-- The books of all columns are in order. -/
def Balanced (a : Account) : Prop := ∀ j, (a.table.columnAt j).Books (a.deposits j)

theorem balanced_blank (config : TableConfig) : (blank config).Balanced :=
  fun _ => Column.books_empty

namespace Balanced

theorem add (h : a.Balanced) (value : String) (row column : Nat) :
    (a.add value row column).Balanced := by
  intro j
  rw [Account.add, Table.add?]
  by_cases hadmits : a.table.config.admits value
  · rw [if_pos hadmits]
    dsimp only
    rw [Table.columnAt_add]
    split
    · rename_i hj
      subst hj
      exact (h column).add hadmits row
    · exact h j
  · rw [if_neg hadmits]
    exact h j

theorem change (h : a.Balanced) {change : Change} (hrow : change.Numbered) :
    (a.change change).Balanced := by
  cases change with
  | add value row column => exact h.add value row column
  | insertRows row count =>
    intro j
    have hcolumn : (a.table.insertRows row count).columnAt j =
        (a.table.columnAt j).insertRows row count :=
      Table.columnAt_map _ (Column.insertRows_empty row count) j
    have hhandles := Column.handles_insertRows (a.table.columnAt j) row count
    exact hcolumn ▸ (h j).of_handles rfl (hhandles ▸ List.Subperm.refl _)
  | removeRows row count =>
    intro j
    have hcolumn : (a.table.removeRows row count).columnAt j =
        (a.table.columnAt j).removeRows row count :=
      Table.columnAt_map _ (Column.removeRows_empty row count) j
    have hhandles := Column.handles_removeRows (a.table.columnAt j) hrow count
    exact hcolumn ▸ (h j).of_handles rfl hhandles.subperm
  | insertColumns column count =>
    intro j
    rw [Account.change]
    dsimp only
    by_cases hlt : column < a.table.columns.size
    · have hnot : ¬ a.table.columnCount ≤ column := Nat.not_le_of_lt hlt
      simp only [Table.columnAt_insertColumns hlt, hnot, false_or]
      split
      · exact h j
      · split
        · exact Column.books_empty
        · exact h _
    · have hle : a.table.columnCount ≤ column := Nat.le_of_not_lt hlt
      rw [Table.insertColumns, if_neg hlt, if_pos (.inl hle)]
      exact h j
  | eraseColumns column count =>
    intro j
    rw [Account.change]
    dsimp only
    rw [Table.columnAt_eraseColumns]
    split
    · exact h j
    · exact h _
  | append other offset => exact List.foldlRecOn _ _ h fun _ ha _ _ => ha.add _ _ _
  | arrange column rows =>
    intro j
    obtain ⟨swaps, harrange⟩ := Table.exists_columnAt_arrange a.table column rows
    have hcolumn : (a.table.arrange column rows).columnAt j =
      (a.table.columnAt j).swapRows swaps a.table.rowCount := harrange j
    have hhandles := Column.handles_swapRows (a.table.columnAt j) swaps a.table.rowCount
    exact hcolumn ▸ (h j).of_handles (Column.blocks_swapRows ..) hhandles
  | clear => exact balanced_blank _
  | shrink => exact h

theorem changes (h : a.Balanced) {changes : List Change}
    (hrows : ∀ change ∈ changes, change.Numbered) : (a.changes changes).Balanced :=
  List.foldlRecOn _ _ h fun _ ha _ hchange => ha.change (hrows _ hchange)

end Balanced

/-! ### Deposits that are kept -/

theorem deposits_add_suffix (a : Account) (value : String) (row column j : Nat) :
    a.deposits j <:+ (a.add value row column).deposits j := by
  rw [add]
  split
  · exact List.suffix_rfl
  · dsimp only
    split
    · exact List.suffix_cons ..
    · exact List.suffix_rfl

/-- A column has its deposits where it goes. -/
theorem deposits_change_suffix (a : Account) {change : Change} {j j' : Nat}
    (hmoves : change.moves? a.table j = some j') :
    a.deposits j <:+ (a.change change).deposits j' := by
  cases change with
  | insertColumns column count =>
    rw [Change.moves?] at hmoves
    rw [Account.change]
    dsimp only
    split at hmoves
    · rename_i hmoved
      obtain rfl := Option.some.inj hmoves
      rw [if_neg (by omega), if_neg (by omega), Nat.add_sub_cancel]
    · rename_i hstays
      obtain rfl := Option.some.inj hmoves
      rw [if_pos (by omega)]
  | eraseColumns column count =>
    rw [Change.moves?] at hmoves
    rw [Account.change]
    dsimp only
    split at hmoves
    · rename_i hlt
      obtain rfl := Option.some.inj hmoves
      rw [if_pos hlt]
    · split at hmoves
      · exact absurd hmoves (by simp)
      · obtain rfl := Option.some.inj hmoves
        have hj : j - count + count = j := by omega
        rw [if_neg (by omega), hj]
  | add value row column =>
    obtain rfl := Option.some.inj hmoves
    exact deposits_add_suffix ..
  | append other offset =>
    obtain rfl := Option.some.inj hmoves
    exact List.foldlRecOn (motive := fun a' : Account => a.deposits j <:+ a'.deposits j) _ _
      List.suffix_rfl fun a' ha' cell _ => ha'.trans (a'.deposits_add_suffix ..)
  | clear => exact absurd hmoves (by simp [Change.moves?])
  | _ =>
    obtain rfl := Option.some.inj hmoves
    exact List.suffix_rfl

theorem deposits_changes_suffix (a : Account) {changes : List Change} {j j' : Nat}
    (hmoves : a.table.movesAll? changes j = some j') :
    a.deposits j <:+ (a.changes changes).deposits j' := by
  induction changes generalizing a j with
  | nil =>
    obtain rfl := Option.some.inj hmoves
    exact List.suffix_rfl
  | cons change changes ih =>
    obtain ⟨i, hi, hmoves⟩ := Option.bind_eq_some_iff.mp hmoves
    rw [← table_change] at hmoves
    exact (a.deposits_change_suffix hi).trans (ih _ hmoves)

end Account

namespace Table

/-- Whatever has been done to a table, its columns keep what they were given;
their rows ascend, if no row was moved down past the last that there can be and
no rows past that were dropped while a cell stood in it; and the handles of all
texts that a column was given are good whatever is done later, as long as the
column is there. -/
theorem changes_keep (config : TableConfig) {changes : List Change}
    (hrows : ∀ change ∈ changes, change.Numbered) :
    let t := (empty config).changes changes
    let deposits := ((Account.blank config).changes changes).deposits
    (∀ j, (t.columnAt j).Keeps (deposits j)) ∧
    ((empty config).SparedBy changes → ∀ j, (t.columnAt j).rows.Pairwise (· < ·)) ∧
    ∀ later : List Change, (∀ change ∈ later, change.Numbered) →
      ∀ j j', t.movesAll? later j = some j' →
        ∀ d ∈ deposits j, ((t.changes later).columnAt j').resolve d.handle = d.value := by
  intro t deposits
  have hbalanced := (Account.balanced_blank config).changes hrows
  have htable : ((Account.blank config).changes changes).table = t := Account.table_changes ..
  refine ⟨fun j => ?_, fun hspared => ?_, fun later hlater j j' hmoves d hd => ?_⟩
  · rw [← htable]
    exact (hbalanced j).keeps
  · have hsound : ∀ j, ((empty config).columnAt j).Sound := fun _ => Column.sound_empty
    exact fun j => (sound_changes hsound hrows hspared j).ascending
  · rw [← htable] at hmoves
    have hkept := Account.deposits_changes_suffix _ hmoves
    have hbooks := (hbalanced.changes hlater) j'
    rw [Account.table_changes, htable] at hbooks
    exact hbooks.keeps.resolves d (hkept.subset hd)

/-- Texts of one column that are replaced, sorted, joined by those of another
table and dropped, all within blocks of four bytes that one text is too long
for; the column then moves, and others are erased. -/
theorem changes_keep_sorted :
    let other : Table := ((empty {}).add "longer" 0 0).add "" 2 1
    let changes : List Change :=
      [.add "b" 0 0, .add "a" 1 0, .add "c" 0 0, .append other 3, .arrange 0 [5, 2, 4, 1, 0, 3],
        .removeRows 0 1, .insertRows 1 2]
    let later : List Change := [.insertColumns 0 2, .eraseColumns 0 1, .add "d" 7 1]
    let t := (empty ⟨4, true⟩).changes changes
    let deposits := ((Account.blank ⟨4, true⟩).changes changes).deposits
    (∀ change ∈ changes ++ later, change.Numbered) ∧ (empty ⟨4, true⟩).SparedBy changes ∧
    t.movesAll? later 0 = some 1 ∧ deposits 0 = [
      ⟨"longer", .stored 2 0 6⟩, ⟨"c", .stored 1 0 1⟩, ⟨"a", .stored 0 2 1⟩, ⟨"b", .stored 0 0 1⟩] ∧
    (t.columnAt 0).Keeps (deposits 0) ∧ (t.columnAt 0).rows.Pairwise (· < ·) ∧
    ∀ d ∈ deposits 0, ((t.changes later).columnAt 1).resolve d.handle = d.value := by
  intro other changes later t deposits
  have hrows : ∀ change ∈ changes ++ later, change.Numbered := by
    simp [changes, later, Change.Numbered, lastRow]
  rw [List.forall_mem_append] at hrows
  have hsize : ((empty ⟨4, true⟩).changes (changes.take 6)).columns.size = 2 := by decide +kernel
  have hroom : ∀ j, (((empty ⟨4, true⟩).changes (changes.take 6)).columnAt j).HasRoom 1 2 := by
    intro j
    rcases Nat.lt_or_ge j 2 with hj | hj
    · revert j
      decide +kernel
    · rw [columnAt_of_le (hsize.trans_le hj)]
      exact fun row hrow => absurd hrow List.not_mem_nil
  have hspared : (empty ⟨4, true⟩).SparedBy changes :=
    ⟨trivial, trivial, trivial, trivial, trivial, .inl (by decide), hroom, trivial⟩
  have hmoves : t.movesAll? later 0 = some 1 := by decide +kernel
  have hdeposits : deposits 0 = [⟨"longer", .stored 2 0 6⟩, ⟨"c", .stored 1 0 1⟩,
      ⟨"a", .stored 0 2 1⟩, ⟨"b", .stored 0 0 1⟩] := by decide +kernel
  obtain ⟨hkeeps, hascend, hresolves⟩ := changes_keep ⟨4, true⟩ hrows.1
  exact ⟨List.forall_mem_append.mpr hrows, hspared, hmoves, hdeposits, hkeeps 0,
    hascend hspared 0, hresolves later hrows.2 0 1 hmoves⟩

/-- A cell that stood in the last row that there can be is not dropped: it
comes after that of row 0, in row 0. -/
example :
    let changes : List Change :=
      [.add "y" 0 0, .add "x" lastRow 0, .removeRows 1 lastRow]
    (((empty {}).changes changes).columnAt 0).rows = [0, 0] := by
  decide +kernel

/-- Nor does a cell stay below that of row 0 which is moved past the last row. -/
example :
    let changes : List Change := [.add "y" 0 0, .add "x" 1 0, .insertRows 1 lastRow]
    (((empty {}).changes changes).columnAt 0).rows = [0, 0] := by
  decide +kernel

end Table

end Tabular
