/-
Tables as sheets.

A sheet is what there is to know of a table: how many columns there are, and
which text is in which cell.

* `Sheet.put`, `Sheet.insertRows`, … — what becomes of a sheet, cell by cell;
* `Table.Shows` — a table is sound and shows a sheet;
* `Shows.add`, `Shows.insertRows`, … — one change of both;
* `Shows.append` — the cells of another table, those refused left out;
* `Shows.answers` — what a table says of itself can be told from its sheet.

Design notes: `Shows` speaks of cells one at a time and of columns by number,
so that a change of the table is the same change of all its columns.  What has
to do with all cells at once, such as their number, is derived in the end.
-/
import Mathlib.Data.Set.Card
import Mathlib.Order.Lattice.Nat
import Tabular.Proofs.Table.Add
import Tabular.Proofs.Table.Cells

namespace Tabular

/-- Whether a text is refused: it is not empty, no block is made larger for a
text, and none has room for it and its NUL. -/
def TableConfig.refuses (config : TableConfig) (value : String) : Bool :=
  value != "" && !config.oversized && config.blockSize < value.utf8ByteSize + 1

theorem TableConfig.admits_eq (config : TableConfig) (value : String) :
    config.admits value = !config.refuses value := by
  rw [admits, refuses, Bool.eq_iff_iff]
  simp [String.isEmpty_iff, or_iff_not_imp_left]

/-- How many columns there are, and which text is in which cell, by row and
column. -/
structure Sheet where
  width : Nat
  cell : Nat → Nat → Option String

namespace Sheet

def blank : Sheet := ⟨0, fun _ _ => none⟩

/-- A text takes the place of any that was in its cell. -/
def put (s : Sheet) (value : String) (row column : Nat) : Sheet where
  width := max s.width (column + 1)
  cell r c := if r = row ∧ c = column then some value else s.cell r c

/-- The cells from that row on move down. -/
def insertRows (s : Sheet) (row count : Nat) : Sheet where
  width := s.width
  cell r c :=
    if r < row then s.cell r c else if r < row + count then none else s.cell (r - count) c

/-- The cells from that row on can be moved down without any of them coming past
the last row that there can be. -/
def HasRoom (s : Sheet) (row count : Nat) : Prop :=
  ∀ r c v, s.cell r c = some v → row ≤ r → r + count ≤ lastRow

/-- So many rows are dropped, and the cells after them move up. -/
def removeRows (s : Sheet) (row count : Nat) : Sheet where
  width := s.width
  cell r c := if r < row then s.cell r c else s.cell (r + count) c

/-- The columns from that one on move to the right, if it is there. -/
def insertColumns (s : Sheet) (column count : Nat) : Sheet :=
  if column < s.width then
    { width := s.width + count
      cell r c :=
        if c < column then s.cell r c
        else if c < column + count then none else s.cell r (c - count) }
  else s

/-- So many columns are dropped, and those after them move to the left. -/
def eraseColumns (s : Sheet) (column count : Nat) : Sheet where
  width := min s.width column + (s.width - (column + count))
  cell r c := if c < column then s.cell r c else s.cell r (c + count)

/-- The cells with a text that is not refused. -/
def kept (config : TableConfig) (s : Sheet) : Sheet where
  width := s.width
  cell r c := (s.cell r c).filter fun v => !config.refuses v

/-- The cells with a text such as that. -/
def having (s : Sheet) (p : String → Bool) : Set (Nat × Nat) :=
  {place | ∃ v, s.cell place.1 place.2 = some v ∧ p v}

/-- One more than the highest column that has a cell. -/
noncomputable def reach (s : Sheet) : Nat :=
  sSup {n | ∃ row column v, s.cell row column = some v ∧ n = column + 1}

/-- The cells of another sheet are added, so many rows further down, if they
are not refused. -/
noncomputable def append (config : TableConfig) (s other : Sheet) (offset : Nat) : Sheet where
  width := max s.width (other.kept config).reach
  cell r c :=
    if offset ≤ r then ((other.kept config).cell (r - offset) c).or (s.cell r c) else s.cell r c

/-- Below the reach of a sheet is what does not stand to the right of all
cells. -/
theorem lt_reach {s : Sheet} {bound : Nat}
    (hb : ∀ row column v, s.cell row column = some v → column < bound) {j : Nat} :
    j < s.reach ↔ ∃ row column v, s.cell row column = some v ∧ j ≤ column := by
  constructor
  · intro hj
    by_contra hnone
    refine Nat.not_le_of_lt hj (csSup_le' ?_)
    rintro _ ⟨row, column, v, hv, rfl⟩
    by_contra hlt
    exact hnone ⟨row, column, v, hv, by omega⟩
  · rintro ⟨row, column, v, hv, hle⟩
    refine Nat.lt_of_lt_of_le (Nat.lt_succ_of_le hle) (le_csSup ⟨bound, ?_⟩ ⟨row, column, v, hv, rfl⟩)
    rintro _ ⟨row, column, v, hv, rfl⟩
    exact hb row column v hv

end Sheet

namespace Table

variable {t t' : Table} {s s' : Sheet}

/-! ### Columns by number -/

theorem get?_eq (t : Table) (row column : Nat) :
    t.get? row column = (t.columnAt column).get? row := by
  rw [get?, columnAt]
  cases t.columns[column]? <;> rfl

theorem columnAt_eq (t : Table) (j : Nat) :
    t.columnAt j = (t.columns.toList[j]?).getD .empty := by
  rw [columnAt, Array.getElem?_toList]

theorem columnAt_of_le {j : Nat} (h : t.columns.size ≤ j) : t.columnAt j = .empty := by
  rw [columnAt, Array.getElem?_eq_none h]
  rfl

/-- A change of every column, which does nothing to those without a cell. -/
theorem columnAt_map (t : Table) {f : Column → Column} (hf : f .empty = .empty) (j : Nat) :
    columnAt { t with columns := t.columns.map f } j = f (t.columnAt j) := by
  rw [columnAt, Array.getElem?_map, columnAt]
  cases t.columns[j]? with
  | none => exact hf.symm
  | some c => rfl

theorem columnAt_insertColumns {column : Nat} (h : column < t.columns.size) (count j : Nat) :
    (t.insertColumns column count).columnAt j =
      if j < column then t.columnAt j
      else if j < column + count then .empty else t.columnAt (j - count) := by
  have hlen : (t.columns.toList.take column).length = column := by
    rw [List.length_take, Array.length_toList]
    omega
  have hcolumns : (t.insertColumns column count).columns.toList =
      t.columns.toList.take column ++ (List.replicate count .empty ++
        t.columns.toList.drop column) := by
    rw [insertColumns, if_pos h]
    simp [List.take_of_length_le]
  rw [columnAt_eq, hcolumns, List.getElem?_append, hlen]
  split
  · rename_i hj
    rw [List.getElem?_take_of_lt hj, ← columnAt_eq]
  · rw [List.getElem?_append, List.length_replicate]
    by_cases hc : j < column + count
    · rw [if_pos hc, if_pos (by omega), List.getElem?_replicate]
      split <;> rfl
    · have hplace : column + (j - column - count) = j - count := by omega
      rw [if_neg hc, if_neg (by omega), List.getElem?_drop, hplace, ← columnAt_eq]

theorem columnAt_eraseColumns (t : Table) (column count j : Nat) :
    (t.eraseColumns column count).columnAt j =
      if j < column then t.columnAt j else t.columnAt (j + count) := by
  have hcolumns : (t.eraseColumns column count).columns.toList =
      t.columns.toList.take column ++ t.columns.toList.drop (column + count) := by
    rw [eraseColumns]
    simp [List.take_of_length_le]
  rw [columnAt_eq, hcolumns, List.getElem?_append, List.length_take, Array.length_toList]
  by_cases hj : j < column
  · rw [if_pos hj]
    split
    · rw [List.getElem?_take_of_lt hj, ← columnAt_eq]
    · -- To the left of the erased columns, but past the last.
      rw [List.getElem?_drop, List.getElem?_eq_none, columnAt_of_le (j := j)]
      · rfl
      · omega
      · rw [Array.length_toList]
        omega
  · rw [if_neg hj, if_neg (by omega), List.getElem?_drop]
    rcases Nat.le_total column t.columns.size with hle | hle
    · have hplace : column + count + (j - min column t.columns.size) = j + count := by omega
      rw [hplace, ← columnAt_eq]
    · rw [List.getElem?_eq_none, columnAt_of_le (j := j + count)]
      · rfl
      · omega
      · rw [Array.length_toList]
        omega

/-! ### A table and its sheet -/

/-- A table is sound and shows a sheet. -/
structure Shows (t : Table) (s : Sheet) : Prop where
  sound : ∀ j, (t.columnAt j).Sound
  width : t.columns.size = s.width
  cell : ∀ row column, (t.columnAt column).get? row = s.cell row column

theorem shows_empty (config : TableConfig) : (empty config).Shows .blank :=
  ⟨fun _ => Column.sound_empty, rfl, fun _ _ => rfl⟩

namespace Shows

theorem add (h : t.Shows s) (value : String) {row : Nat} (hrow : row ≤ lastRow) (column : Nat) :
    (t.add value row column).Shows (s.put value row column) := by
  refine ⟨fun j => ?_, ?_, fun r j => ?_⟩
  · rw [columnAt_add]
    split
    · exact (h.sound j).add hrow
    · exact h.sound j
  · rw [size_add, h.width]
    rfl
  · rw [columnAt_add]
    by_cases hj : column = j
    · rw [if_pos hj, (h.sound j).get?_add hrow, h.cell, Sheet.put]
      simp [hj]
    · rw [if_neg hj, h.cell, Sheet.put]
      simp [Ne.symm hj]

/-- A row that has a cell in a column has a text there. -/
theorem mem_rows (h : t.Shows s) {row column : Nat} :
    row ∈ (t.columnAt column).rows ↔ ∃ v, s.cell row column = some v := by
  have hrows : row ∈ (t.columnAt column).rows ↔ ∃ v, (row, v) ∈ (t.columnAt column).toList := by
    simp [Column.rows, Column.toList]
  rw [hrows]
  refine exists_congr fun v => ?_
  rw [← h.cell, (h.sound column).get?_eq_some]

theorem insertRows (h : t.Shows s) {row count : Nat} (hroom : s.HasRoom row count) :
    (t.insertRows row count).Shows (s.insertRows row count) := by
  have hroom : ∀ j, (t.columnAt j).HasRoom row count := fun j r hr hle =>
    let ⟨v, hv⟩ := h.mem_rows.mp hr
    hroom r j v hv hle
  have hcolumn : ∀ j, (t.insertRows row count).columnAt j = (t.columnAt j).insertRows row count :=
    columnAt_map t (Column.insertRows_empty row count)
  refine ⟨fun j => ?_, ?_, fun r j => ?_⟩
  · rw [hcolumn]
    exact (h.sound j).insertRows (hroom j)
  · exact Array.size_map.trans h.width
  · rw [hcolumn, (h.sound j).get?_insertRows (hroom j), h.cell, h.cell]
    rfl

theorem removeRows (h : t.Shows s) {row count : Nat} (hle : row + count ≤ lastRow) :
    (t.removeRows row count).Shows (s.removeRows row count) := by
  have hcolumn : ∀ j, (t.removeRows row count).columnAt j = (t.columnAt j).removeRows row count :=
    columnAt_map t (Column.removeRows_empty row count)
  refine ⟨fun j => ?_, ?_, fun r j => ?_⟩
  · rw [hcolumn]
    exact (h.sound j).removeRows hle
  · exact Array.size_map.trans h.width
  · rw [hcolumn, (h.sound j).get?_removeRows hle, h.cell, h.cell]
    rfl

theorem insertColumns (h : t.Shows s) (column count : Nat) :
    (t.insertColumns column count).Shows (s.insertColumns column count) := by
  rw [Sheet.insertColumns, ← h.width]
  split
  · rename_i hlt
    refine ⟨fun j => ?_, ?_, fun r j => ?_⟩
    · rw [columnAt_insertColumns hlt]
      split
      · exact h.sound j
      · split
        · exact Column.sound_empty
        · exact h.sound _
    · rw [Table.insertColumns, if_pos hlt]
      simp
      omega
    · rw [columnAt_insertColumns hlt]
      dsimp only
      split
      · exact h.cell r j
      · split
        · rfl
        · exact h.cell r _
  · rename_i hge
    rw [Table.insertColumns, if_neg hge]
    exact h

theorem eraseColumns (h : t.Shows s) (column count : Nat) :
    (t.eraseColumns column count).Shows (s.eraseColumns column count) := by
  refine ⟨fun j => ?_, ?_, fun r j => ?_⟩
  · rw [columnAt_eraseColumns]
    split
    · exact h.sound j
    · exact h.sound _
  · rw [Table.eraseColumns, Sheet.eraseColumns, ← h.width]
    simp
    omega
  · rw [columnAt_eraseColumns, Sheet.eraseColumns]
    dsimp only
    split
    · exact h.cell r j
    · exact h.cell r _

/-- A cell stands in one of the columns. -/
theorem lt_width (h : t.Shows s) {row column : Nat} {v : String}
    (hv : s.cell row column = some v) : column < s.width := by
  by_contra hge
  rw [← h.cell, columnAt_of_le (by rw [h.width]; omega)] at hv
  exact absurd hv (by simp [Column.get?, Column.handle?, Column.empty])

theorem mem_toList (h : t.Shows s) {row column : Nat} {v : String} :
    (row, v) ∈ (t.columnAt column).toList ↔ s.cell row column = some v := by
  rw [← h.cell, (h.sound column).get?_eq_some]

theorem mem_cells (h : t.Shows s) {row column : Nat} {v : String} :
    (row, column, v) ∈ t.cells ↔ s.cell row column = some v := by
  have hmem : (row, column, v) ∈ t.cells ↔ (row, column, v) ∈ inColumn column t.cells := by
    simp [inColumn]
  rw [hmem, inColumn_cells, ← h.mem_toList]
  simp

/-- No place has two cells. -/
theorem nodup_places (h : t.Shows s) :
    (t.cells.map fun cell => (cell.1, cell.2.1)).Nodup := by
  have hasc : Ascending t.cells := fun j => by
    rw [inColumn_cells, List.map_map]
    exact (h.sound j).rows_ascend
  rw [List.Nodup, List.pairwise_map, List.pairwise_iff_forall_sublist]
  intro a b hab heq
  obtain ⟨hrow, hcolumn⟩ := Prod.mk.inj heq
  have hlt := List.pairwise_filter.mp (List.pairwise_map.mp (hasc a.2.1))
  have hlt := List.pairwise_iff_forall_sublist.mp hlt hab (by simp) (by simp [hcolumn])
  omega

/-- The number of cells with a text such as that. -/
theorem encard_having (h : t.Shows s) (p : String → Bool) :
    (s.having p).encard = (t.cells.countP fun cell => p cell.2.2 : Nat) := by
  have hset : s.having p =
      (((t.cells.filter fun cell => p cell.2.2).map fun cell => (cell.1, cell.2.1)).toFinset :
        Set (Nat × Nat)) := by
    ext place
    rw [List.coe_toFinset, Set.mem_ofPred_eq, List.mem_map]
    constructor
    · rintro ⟨v, hv, hp⟩
      exact ⟨(place.1, place.2, v), List.mem_filter.mpr ⟨h.mem_cells.mpr hv, hp⟩, rfl⟩
    · rintro ⟨⟨row, column, v⟩, hcell, rfl⟩
      obtain ⟨hcell, hp⟩ := List.mem_filter.mp hcell
      exact ⟨v, h.mem_cells.mp hcell, hp⟩
  have hsub : (t.cells.filter fun cell => p cell.2.2).Sublist t.cells := List.filter_sublist
  have hnodup := h.nodup_places.sublist (hsub.map fun cell => (cell.1, cell.2.1))
  rw [hset, Set.encard_coe_eq_coe_finsetCard, List.toFinset_card_of_nodup hnodup, List.length_map,
    List.countP_eq_length_filter]

end Shows

/-! ### Adding the cells of another table -/

/-- The cells that are added to a column. -/
def arrivals (config : TableConfig) (t' : Table) (offset j : Nat) : List (Nat × String) :=
  ((t'.columnAt j).toList.filter fun cell => config.admits cell.2).map fun cell =>
    (rowBelow cell.1 offset, cell.2)

theorem inColumn_arrivals (config : TableConfig) (t' : Table) (offset j : Nat) :
    inColumn j ((t'.cells.map (lower offset)).filter fun cell => config.admits cell.2.2) =
      (arrivals config t' offset j).map fun cell => (cell.1, j, cell.2) := by
  have hlower : ∀ cell, (lower offset cell).2.1 = cell.2.1 := fun _ => rfl
  rw [List.filter_map, inColumn_map_rows hlower, inColumn, List.filter_comm, ← inColumn,
    inColumn_cells, List.filter_map, arrivals, List.map_map, List.map_map]
  rfl

theorem columnAt_append (t t' : Table) (offset j : Nat) :
    (t.append t' offset).1.columnAt j =
      (arrivals t.config t' offset j).foldl (fun c entry => c.add t.config entry.2 entry.1)
        (t.columnAt j) := by
  show (t.addAll (t'.cells.map (lower offset))).1.columnAt j = _
  rw [addAll_eq, columnAt_putAll, inColumn_arrivals, List.foldl_map]

theorem lt_size_append (t t' : Table) (offset j : Nat) :
    j < (t.append t' offset).1.columns.size ↔
      j < t.columns.size ∨ ∃ i, j ≤ i ∧ arrivals t.config t' offset i ≠ [] := by
  show j < (t.addAll (t'.cells.map (lower offset))).1.columns.size ↔ _
  rw [addAll_eq, lt_size_putAll]
  simp only [inColumn_arrivals, ne_eq, List.map_eq_nil_iff]

theorem append_snd (t t' : Table) (offset : Nat) :
    (t.append t' offset).2 = t'.cells.countP fun cell => t.config.refuses cell.2.2 := by
  show (t.addAll (t'.cells.map (lower offset))).2 = _
  rw [addAll_eq, List.countP_map]
  refine List.countP_congr fun cell _ => ?_
  simp [lower, TableConfig.admits_eq]

/-- They are moved down where there is room for them. -/
theorem Shows.arrivals_eq (h' : t'.Shows s') {config : TableConfig} {offset : Nat}
    (hroom : (s'.kept config).HasRoom 0 offset) (j : Nat) :
    arrivals config t' offset j =
      ((t'.columnAt j).toList.filter fun cell => config.admits cell.2).map fun cell =>
        (cell.1 + offset, cell.2) := by
  refine List.map_congr_left fun cell hcell => ?_
  obtain ⟨hcell, hadmits⟩ := List.mem_filter.mp hcell
  have hkept : (s'.kept config).cell cell.1 j = some cell.2 :=
    Option.filter_eq_some_iff.mpr ⟨h'.mem_toList.mp hcell, config.admits_eq _ ▸ hadmits⟩
  rw [rowBelow_of_le (hroom _ _ _ hkept (Nat.zero_le _))]

theorem Shows.mem_arrivals (h' : t'.Shows s') {config : TableConfig} {offset : Nat}
    (hroom : (s'.kept config).HasRoom 0 offset) {j r : Nat} {v : String} :
    (r, v) ∈ arrivals config t' offset j ↔
      offset ≤ r ∧ (s'.kept config).cell (r - offset) j = some v := by
  rw [h'.arrivals_eq hroom, List.mem_map, Sheet.kept]
  simp only [Option.filter_eq_some_iff, List.mem_filter, TableConfig.admits_eq]
  constructor
  · rintro ⟨cell, ⟨hcell, hadmits⟩, heq⟩
    obtain ⟨rfl, rfl⟩ := Prod.mk.inj heq
    rw [Nat.add_sub_cancel]
    exact ⟨Nat.le_add_left .., h'.mem_toList.mp hcell, hadmits⟩
  · rintro ⟨hle, hcell, hadmits⟩
    refine ⟨(r - offset, v), ⟨h'.mem_toList.mpr hcell, hadmits⟩, ?_⟩
    rw [Nat.sub_add_cancel hle]

theorem Shows.lt_width_kept (h' : t'.Shows s') {config : TableConfig} (row column : Nat)
    (v : String) (hv : (s'.kept config).cell row column = some v) : column < s'.width :=
  h'.lt_width (Option.filter_eq_some_iff.mp hv).1

theorem Shows.append (h : t.Shows s) (h' : t'.Shows s') {offset : Nat}
    (hroom : (s'.kept t.config).HasRoom 0 offset) :
    (t.append t' offset).1.Shows (s.append t.config s' offset) := by
  have hmem : ∀ {j r v}, (r, v) ∈ arrivals t.config t' offset j ↔ _ := h'.mem_arrivals hroom
  have hrows : ∀ j, ∀ entry ∈ arrivals t.config t' offset j, entry.1 ≤ lastRow := by
    intro j entry hentry
    obtain ⟨cell, -, rfl⟩ := List.mem_map.mp hentry
    exact rowBelow_le ..
  have hnodup : ∀ j, ((arrivals t.config t' offset j).map Prod.fst).Nodup := by
    intro j
    rw [h'.arrivals_eq hroom, List.map_map]
    have hasc := List.pairwise_map.mp (h'.sound j).rows_ascend
    exact List.pairwise_map.mpr ((hasc.filter _).imp fun hlt =>
      Nat.ne_of_lt (Nat.add_lt_add_right hlt offset))
  refine ⟨fun j => ?_, ?_, fun r j => ?_⟩
  · rw [columnAt_append]
    exact ((h.sound j).foldl_add t.config (hnodup j) (hrows j)).1
  · refine eq_of_forall_lt_iff fun j => ?_
    have hreach : j < (s'.kept t.config).reach ↔ ∃ i, j ≤ i ∧ arrivals t.config t' offset i ≠ [] := by
      rw [Sheet.lt_reach h'.lt_width_kept]
      constructor
      · rintro ⟨row, i, v, hv, hle⟩
        refine ⟨i, hle, List.ne_nil_of_mem (a := (row + offset, v)) (hmem.mpr ⟨?_, ?_⟩)⟩
        · exact Nat.le_add_left ..
        · rwa [Nat.add_sub_cancel]
      · rintro ⟨i, hle, hne⟩
        obtain ⟨⟨r, v⟩, hv⟩ := List.exists_mem_of_ne_nil _ hne
        exact ⟨r - offset, i, v, (hmem.mp hv).2, hle⟩
    rw [lt_size_append, h.width, ← hreach, Sheet.append, lt_max_iff]
  · rw [columnAt_append]
    obtain ⟨-, hin, hout⟩ := (h.sound j).foldl_add t.config (hnodup j) (hrows j)
    by_cases hr : ∃ v, (r, v) ∈ arrivals t.config t' offset j
    · obtain ⟨v, hv⟩ := hr
      obtain ⟨hle, hcell⟩ := hmem.mp hv
      rw [hin _ hv, Sheet.append]
      dsimp only
      rw [if_pos hle, hcell, Option.some_or]
    · rw [hout r (by simpa using hr), h.cell, Sheet.append]
      dsimp only
      split
      · rename_i hle
        have hnone : (s'.kept t.config).cell (r - offset) j = none :=
          Option.eq_none_iff_forall_ne_some.mpr fun v hv => hr ⟨v, hmem.mpr ⟨hle, hv⟩⟩
        rw [hnone, Option.none_or]
      · rfl

/-! ### What a table says of itself -/

/-- A table says of itself what can be told from a sheet. -/
structure Answers (t : Table) (s : Sheet) : Prop where
  get? : ∀ row column, t.get? row column = s.cell row column
  columnCount : t.columnCount = s.width
  /-- The rows that have a cell, in ascending order. -/
  rowIndices : t.rowIndices.Pairwise (· < ·) ∧
    ∀ row, row ∈ t.rowIndices ↔ ∃ column v, s.cell row column = some v
  /-- The least number that is above all rows with a cell, as rows are counted. -/
  rowCount : ∃ n, IsLeast {n | ∀ row column v, s.cell row column = some v → row < n} n ∧
    t.rowCount = n % (lastRow + 1)
  nonEmptyCount : (s.having (· != "")).encard = t.nonEmptyCount
  /-- The cells of a column, in ascending order of row. -/
  rowsOf : ∀ column, ((t.rowsOf column).map Prod.fst).Pairwise (· < ·) ∧
    ∀ row v, (row, v) ∈ t.rowsOf column ↔ s.cell row column = some v

/-- Repeated rows are left out of ascending ones. -/
theorem eraseReps_ascending {rows : List Nat} (h : rows.Pairwise (· ≤ ·)) :
    rows.eraseReps.Pairwise (· < ·) ∧ ∀ row, row ∈ rows.eraseReps ↔ row ∈ rows := by
  -- Stated for the loop, which holds one row back and has put out others.
  suffices hloop : ∀ (rows : List Nat) (first : Nat) (acc : List Nat),
      (first :: rows).Pairwise (· ≤ ·) →
      ∃ found, List.eraseRepsBy.loop (· == ·) first rows acc = acc.reverse ++ found ∧
        found.Pairwise (· < ·) ∧ ∀ row, row ∈ found ↔ row ∈ first :: rows by
    cases rows with
    | nil => exact ⟨.nil, fun _ => Iff.rfl⟩
    | cons first rows =>
      obtain ⟨found, heq, hfound⟩ := hloop rows first [] h
      rw [List.eraseReps, List.eraseRepsBy, heq]
      exact hfound
  intro rows
  induction rows with
  | nil =>
    intro first acc _
    exact ⟨[first], List.reverse_cons, List.pairwise_singleton .., fun _ => Iff.rfl⟩
  | cons next rows ih =>
    intro first acc hasc
    have hnext : (next :: rows).Pairwise (· ≤ ·) := (List.pairwise_cons.mp hasc).2
    rw [List.eraseRepsBy.loop]
    by_cases heq : first = next
    · obtain rfl := heq
      obtain ⟨found, hloop, hlt, hmem⟩ := ih first acc hnext
      refine ⟨found, by simpa using hloop, hlt, fun row => ?_⟩
      rw [hmem, List.mem_cons (b := first) (l := first :: rows)]
      simp
    · obtain ⟨found, hloop, hlt, hmem⟩ := ih next (first :: acc) hnext
      rw [beq_false_of_ne heq]
      refine ⟨first :: found, by simpa using hloop, ?_, fun row => ?_⟩
      · refine List.pairwise_cons.mpr ⟨fun row hrow => ?_, hlt⟩
        have hfirst : first ≤ next := (List.pairwise_cons.mp hasc).1 next (List.mem_cons_self ..)
        have hrow : next ≤ row := by
          rcases List.mem_cons.mp ((hmem row).mp hrow) with rfl | hrow
          · exact Nat.le_refl _
          · exact (List.pairwise_cons.mp hnext).1 row hrow
        omega
      · rw [List.mem_cons, hmem, List.mem_cons (b := first)]

theorem foldl_max_le (columns : List Column) (f : Column → Nat) (n m : Nat) :
    columns.foldl (fun n c => max n (f c)) n ≤ m ↔ n ≤ m ∧ ∀ c ∈ columns, f c ≤ m := by
  induction columns generalizing n with
  | nil => simp
  | cons c columns ih => rw [List.foldl_cons, ih, Nat.max_le, List.forall_mem_cons, and_assoc]

theorem nonEmptyCount_eq (h : ∀ c ∈ t.columns, c.Sound) :
    t.nonEmptyCount = t.cells.countP fun cell => cell.2.2 != "" := by
  -- Stated for columns that are numbered from `k` on.
  suffices hcount : ∀ (columns : List Column) (k : Nat), (∀ c ∈ columns, c.Sound) →
      columns.foldr (fun c n => c.nonEmptyCount + n) 0 =
        ((columns.zipIdx k).flatMap fun c =>
          c.1.toList.map fun cell => (cell.1, c.2, cell.2)).countP fun cell => cell.2.2 != "" by
    rw [nonEmptyCount, ← Array.foldr_toList]
    exact hcount _ 0 (by simpa using h)
  intro columns
  induction columns with
  | nil => exact fun _ _ => rfl
  | cons c columns ih =>
    intro k hsound
    rw [List.forall_mem_cons] at hsound
    rw [List.foldr_cons, ih (k + 1) hsound.2, List.zipIdx_cons, List.flatMap_cons,
      List.countP_append, hsound.1.nonEmptyCount_eq, List.countP_map]
    rfl

theorem mem_columns {c : Column} : c ∈ t.columns ↔ ∃ j < t.columns.size, t.columnAt j = c := by
  rw [Array.mem_iff_getElem]
  constructor
  · rintro ⟨j, hj, rfl⟩
    exact ⟨j, hj, by rw [columnAt, Array.getElem?_eq_getElem hj]; rfl⟩
  · rintro ⟨j, hj, rfl⟩
    exact ⟨j, hj, by rw [columnAt, Array.getElem?_eq_getElem hj]; rfl⟩

namespace Shows

theorem sound_of_mem (h : t.Shows s) {c : Column} (hc : c ∈ t.columns) : c.Sound := by
  obtain ⟨j, -, rfl⟩ := mem_columns.mp hc
  exact h.sound j

/-- A row has a cell in one of the columns if it has one at all. -/
theorem exists_cell (h : t.Shows s) {p : Nat → Prop} :
    (∃ c ∈ t.columns, ∃ cell ∈ c.toList, p cell.1) ↔
      ∃ row column v, s.cell row column = some v ∧ p row := by
  constructor
  · rintro ⟨c, hc, ⟨row, v⟩, hcell, hp⟩
    obtain ⟨j, -, rfl⟩ := mem_columns.mp hc
    exact ⟨row, j, v, h.mem_toList.mp hcell, hp⟩
  · rintro ⟨row, column, v, hv, hp⟩
    have hlt : column < t.columns.size := h.width ▸ h.lt_width hv
    exact ⟨_, mem_columns.mpr ⟨column, hlt, rfl⟩, (row, v), h.mem_toList.mpr hv, hp⟩

theorem rowIndices (h : t.Shows s) :
    t.rowIndices.Pairwise (· < ·) ∧
      ∀ row, row ∈ t.rowIndices ↔ ∃ column v, s.cell row column = some v := by
  have hsorted : (t.columns.toList.flatMap Column.rows).mergeSort.Pairwise (· ≤ ·) :=
    List.pairwise_mergeSort' (· ≤ ·) _
  obtain ⟨hasc, hmem⟩ := eraseReps_ascending hsorted
  refine ⟨hasc, fun row => ?_⟩
  have hrows : ∀ c : Column, row ∈ c.rows ↔ ∃ cell ∈ c.toList, cell.1 = row := by
    simp [Column.rows, Column.toList]
  rw [Table.rowIndices, hmem, List.mem_mergeSort, List.mem_flatMap]
  simp only [Array.mem_toList_iff, hrows]
  rw [h.exists_cell (p := (· = row))]
  constructor
  · rintro ⟨_, column, v, hv, rfl⟩
    exact ⟨column, v, hv⟩
  · rintro ⟨column, v, hv⟩
    exact ⟨row, column, v, hv, rfl⟩

theorem rowBound_le (h : t.Shows s) {n : Nat} :
    t.rowBound ≤ n ↔ ∀ row column v, s.cell row column = some v → row < n := by
  have hcell : (∀ c ∈ t.columns, ∀ cell ∈ c.toList, cell.1 < n) ↔
      ∀ row column v, s.cell row column = some v → row < n := by
    simpa using not_congr (h.exists_cell (p := fun row => ¬ row < n))
  rw [← hcell, rowBound, ← Array.foldl_toList, foldl_max_le]
  simp only [Nat.zero_le, true_and, Array.mem_toList_iff]
  exact forall₂_congr fun c hc => (h.sound_of_mem hc).maxRow?_lt

theorem rowsOf_eq (t : Table) (column : Nat) : t.rowsOf column = (t.columnAt column).toList := by
  rw [rowsOf, columnAt]
  cases t.columns[column]? <;> rfl

/-- What a table says of itself can be told from its sheet. -/
theorem answers (h : t.Shows s) : t.Answers s where
  get? row column := (get?_eq t row column).trans (h.cell row column)
  columnCount := h.width
  rowIndices := h.rowIndices
  rowCount :=
    ⟨t.rowBound, ⟨h.rowBound_le.mp (Nat.le_refl _), fun _ hn => h.rowBound_le.mpr hn⟩, rfl⟩
  nonEmptyCount := by
    rw [h.encard_having, nonEmptyCount_eq fun _ hc => h.sound_of_mem hc]
  rowsOf column := by
    rw [rowsOf_eq]
    exact ⟨(h.sound column).rows_ascend, fun _ _ => h.mem_toList⟩

end Shows

end Table

end Tabular
