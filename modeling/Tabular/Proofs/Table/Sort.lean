/-
Sorting the rows of a table.

* `Column.getElem?_dense`, `Column.ofDense_dense` — the cells of a column by
  row, and back again;
* `Column.handle?_swapRows` — swaps that put rows in an order put the cells of
  a column in that order;
* `Table.sortOrder_sortedRows` — an order that the rows can be put in;
* `Table.SortsInto` — the rows of a table, each as a whole, in such an order;
* `Table.exists_sortsInto` — any of the orders that sorting may give puts the
  rows of a table in order, if they ascend and none is the last that there can
  be;
* `Table.sortBy_permutes` — so it is whatever has been done to the table.

Design notes: cells are put in their rows of an array before they change
places.  Of two cells of one row the first is lost there, and so is a cell
below the last row.  No column has such cells as long as its rows ascend.
-/
import Mathlib.Data.Fintype.EquivFin
import Tabular.Proofs.Table.Changes
import Tabular.Proofs.Table.Swaps

namespace Tabular

namespace Column

variable {c : Column} {n i : Nat}

/-! ### Cells by row -/

/-- Each handle that is put in its row is found there, if no row has two. -/
theorem getElem?_foldl_setIfInBounds {cells : List (Nat × Handle)}
    (hnodup : (cells.map Prod.fst).Nodup) {xs : Array (Option Handle)} (hi : i < xs.size) :
    let ys := cells.foldl (fun xs cell => xs.setIfInBounds cell.1 (some cell.2)) xs
    (∀ handle, (i, handle) ∈ cells → ys[i]? = some (some handle)) ∧
      (i ∉ cells.map Prod.fst → ys[i]? = xs[i]?) := by
  induction cells generalizing xs with
  | nil => exact ⟨fun _ hmem => absurd hmem List.not_mem_nil, fun _ => rfl⟩
  | cons cell cells ih =>
    rw [List.map_cons, List.nodup_cons] at hnodup
    have hsize : i < (xs.setIfInBounds cell.1 (some cell.2)).size := by
      rwa [Array.size_setIfInBounds]
    obtain ⟨hin, hout⟩ := ih hnodup.2 hsize
    refine ⟨fun handle hmem => ?_, fun hmem => ?_⟩
    · rcases List.mem_cons.mp hmem with rfl | hmem
      · rw [List.foldl_cons, hout hnodup.1, Array.getElem?_setIfInBounds, if_pos rfl, if_pos hi]
      · exact hin handle hmem
    · rw [List.map_cons, List.mem_cons, not_or] at hmem
      rw [List.foldl_cons, hout hmem.2, Array.getElem?_setIfInBounds, if_neg (Ne.symm hmem.1)]

theorem Ascending.nodup {cells : Array (Nat × Handle)} (h : Ascending cells) :
    (cells.toList.map Prod.fst).Nodup := List.Pairwise.imp Nat.ne_of_lt h

theorem handle?_eq_none (h : Ascending c.cells) : c.handle? i = none ↔ i ∉ c.rows := by
  rw [Option.eq_none_iff_forall_ne_some, rows, List.mem_map]
  constructor
  · rintro hnone ⟨⟨row, handle⟩, hcell, rfl⟩
    exact hnone handle ((handle?_eq_some h).mpr hcell)
  · intro hnone handle hsome
    exact hnone ⟨(i, handle), (handle?_eq_some h).mp hsome, rfl⟩

theorem getElem?_dense (h : Ascending c.cells) (hi : i < n) :
    (c.dense n)[i]? = some (c.handle? i) := by
  have hsize : i < (Array.replicate n (none : Option Handle)).size := by
    rwa [Array.size_replicate]
  obtain ⟨hin, hout⟩ := getElem?_foldl_setIfInBounds h.nodup hsize
  rw [dense, ← Array.foldl_toList]
  cases hh : c.handle? i with
  | some handle => exact hin handle ((handle?_eq_some h).mp hh)
  | none =>
    refine (hout ((handle?_eq_none h).mp hh)).trans ?_
    rw [Array.getElem?_replicate, if_pos hi]

theorem dense_eq (h : Ascending c.cells) (n : Nat) :
    c.dense n = ((List.range n).map c.handle?).toArray := by
  refine Array.ext_getElem? fun i => ?_
  by_cases hi : i < n
  · rw [getElem?_dense h hi]
    simp [hi]
  · have hge := Nat.le_of_not_lt hi
    rw [Array.getElem?_eq_none (by rwa [size_dense])]
    simp [hge]

theorem handle?_ofDense (blocks : Array Block) (xs : Array (Option Handle)) (i : Nat) :
    (Column.mk blocks (ofDense xs)).handle? i = xs[i]?.join := by
  ext handle
  rw [handle?_eq_some (ascending_ofDense xs), mem_ofDense, Option.join_eq_some_iff]

/-- Cells that ascend are known by which they are. -/
theorem Ascending.ext {cells cells' : Array (Nat × Handle)} (h : Ascending cells)
    (h' : Ascending cells') (hmem : ∀ cell, cell ∈ cells.toList ↔ cell ∈ cells'.toList) :
    cells = cells' := by
  have hlt : cells.toList.Pairwise fun a b => a.1 < b.1 := List.pairwise_map.mp h
  have hlt' : cells'.toList.Pairwise fun a b => a.1 < b.1 := List.pairwise_map.mp h'
  have hperm := (List.perm_ext_iff_of_nodup h.nodup.of_map h'.nodup.of_map).mpr hmem
  refine Array.toList_inj.mp (hperm.eq_of_pairwise ?_ hlt hlt')
  intro a b _ _ hab hba
  exact absurd hab (Nat.lt_asymm hba)

/-- The cells of a column are again those of their array, if it has room for
all of them. -/
theorem ofDense_dense (h : Ascending c.cells) (hrows : ∀ row ∈ c.rows, row < n) :
    ofDense (c.dense n) = c.cells := by
  refine (ascending_ofDense _).ext h ?_
  rintro ⟨row, handle⟩
  rw [mem_ofDense, ← handle?_eq_some h]
  by_cases hrow : row < n
  · rw [getElem?_dense h hrow, Option.some_inj]
  · have hnone : c.handle? row = none :=
      (handle?_eq_none h).mpr fun hmem => hrow (hrows row hmem)
    rw [Array.getElem?_eq_none (by rw [size_dense]; omega), hnone]
    simp

/-! ### Cells that change places -/

variable {order : List Nat}

theorem eq_range_of_swapsOf (hperm : order.Perm (List.range n)) (h : swapsOf order = []) :
    order = List.range n := by
  have hswaps := applySwaps_swapsOf id hperm
  rw [h, List.map_id, List.map_id] at hswaps
  exact (List.toArray_inj hswaps).symm

/-- Swaps that put rows in an order put the cells of a column in that order. -/
theorem handle?_swapRows (h : Ascending c.cells) (hperm : order.Perm (List.range n)) {row : Nat}
    (hi : order[i]? = some row) : (c.swapRows (swapsOf order) n).handle? i = c.handle? row := by
  rw [swapRows]
  split
  · rename_i hnone
    rcases Bool.or_eq_true_iff.mp hnone with hcells | hswaps
    · have hempty : c.rows = [] := by
        rw [rows, Array.isEmpty_iff.mp hcells]
        rfl
      rw [(handle?_eq_none h).mpr (by simp [hempty]), (handle?_eq_none h).mpr (by simp [hempty])]
    · rw [eq_range_of_swapsOf hperm (List.isEmpty_iff.mp hswaps)] at hi
      obtain ⟨hlt, rfl⟩ := List.getElem?_eq_some_iff.mp hi
      rw [List.getElem_range]
  · rw [handle?_ofDense, dense_eq h, applySwaps_swapsOf c.handle? hperm, List.getElem?_toArray,
      List.getElem?_map, hi]
    rfl

theorem rows_swapRows_lt (hrows : ∀ row ∈ c.rows, row < n) (swaps : List (Nat × Nat)) :
    ∀ row ∈ (c.swapRows swaps n).rows, row < n := by
  rw [swapRows]
  split
  · exact hrows
  · intro row hrow
    obtain ⟨⟨row, handle⟩, hcell, rfl⟩ := List.mem_map.mp hrow
    obtain ⟨hlt, -⟩ := Array.getElem?_eq_some_iff.mp (mem_ofDense.mp hcell)
    rwa [(applySwaps_perm swaps (c.dense n)).size_eq, size_dense] at hlt

/-- No cell is lost. -/
theorem perm_handles_swapRows (h : Ascending c.cells) (hrows : ∀ row ∈ c.rows, row < n)
    (swaps : List (Nat × Nat)) : (c.swapRows swaps n).handles.Perm c.handles := by
  rw [swapRows]
  split
  · exact .refl _
  · have hdense := handles_ofDense (c.dense n)
    rw [ofDense_dense h hrows] at hdense
    rw [handles, handles_ofDense, handles, hdense]
    exact (applySwaps_perm swaps (c.dense n)).toList.filterMap id

theorem resolve_swapRows (c : Column) (swaps : List (Nat × Nat)) (n : Nat) :
    (c.swapRows swaps n).resolve = c.resolve := by
  funext handle
  cases handle with
  | empty => rfl
  | stored block offset length => rw [resolve, resolve, blocks_swapRows]

theorem size_swapRows (h : Ascending c.cells) (hrows : ∀ row ∈ c.rows, row < n)
    (swaps : List (Nat × Nat)) : (c.swapRows swaps n).size = c.size := by
  have hlength := (perm_handles_swapRows h hrows swaps).length_eq
  rwa [handles, handles, List.length_map, List.length_map] at hlength

theorem nonEmptyCount_swapRows (h : Ascending c.cells) (hrows : ∀ row ∈ c.rows, row < n)
    (swaps : List (Nat × Nat)) : (c.swapRows swaps n).nonEmptyCount = c.nonEmptyCount := by
  have hcount : ∀ c : Column, c.nonEmptyCount = c.handles.countP (· != .empty) := by
    intro c
    rw [nonEmptyCount, handles, List.countP_map, ← Array.countP_toList]
    rfl
  rw [hcount, hcount]
  exact (perm_handles_swapRows h hrows swaps).countP_eq _

theorem mem_rows_of_maxRow? {row : Nat} (h : c.maxRow? = some row) : row ∈ c.rows := by
  obtain ⟨cell, hcell, rfl⟩ := Option.map_eq_some_iff.mp h
  rw [← Array.getLast?_toList] at hcell
  exact List.mem_map_of_mem (List.mem_of_getLast? hcell)

/-- All rows that have a cell are above the one after that of the last cell. -/
theorem lt_maxRow? (h : Ascending c.cells) :
    ∀ row ∈ c.rows, row < (c.maxRow?.map (· + 1)).getD 0 := by
  rw [maxRow?, ← Array.getLast?_toList, rows]
  have hasc : (c.cells.toList.map Prod.fst).Pairwise (· < ·) := h
  rcases List.eq_nil_or_concat c.cells.toList with hnil | ⟨front, last, hcells⟩
  · simp [hnil]
  · rw [hcells, List.concat_eq_append] at hasc ⊢
    rw [List.map_append, List.pairwise_append] at hasc
    intro row hrow
    rw [List.map_append, List.mem_append] at hrow
    rw [List.getLast?_concat, Option.map_some, Option.map_some, Option.getD_some]
    rcases hrow with hrow | hrow
    · exact Nat.lt_succ_of_lt (hasc.2.2 row hrow last.1 (List.mem_singleton.mpr rfl))
    · obtain rfl := List.mem_singleton.mp hrow
      exact Nat.lt_succ_self _

end Column

/-! ### Orders on cells -/

namespace CellOrder

variable {α : Type} {compareKeys : α → α → Ordering} {key : String → α}

/-- An order by keys in which missing cells come first is one of cells. -/
instance [Std.TransCmp compareKeys] : Std.TransCmp (byKey compareKeys key) where
  eq_swap {a b} := by
    cases a with
    | none => cases b <;> rfl
    | some a =>
      cases b with
      | none => rfl
      | some b =>
        show compareKeys (key a) (key b) = (compareKeys (key b) (key a)).swap
        exact Std.OrientedCmp.eq_swap
  isLE_trans {a b c} := by
    cases a with
    | none => cases c <;> exact fun _ _ => rfl
    | some a =>
      cases b with
      | none => exact fun h => absurd h Bool.false_ne_true
      | some b =>
        cases c with
        | none => exact fun _ h => absurd h Bool.false_ne_true
        | some c =>
          show (compareKeys (key a) (key b)).isLE → (compareKeys (key b) (key c)).isLE →
            (compareKeys (key a) (key c)).isLE
          exact Std.TransCmp.isLE_trans

instance : Std.TransCmp ascending := inferInstanceAs (Std.TransCmp (byKey compare id))

instance : Std.TransCmp descending := inferInstanceAs (Std.TransCmp fun a b => ascending b a)

instance : Std.TransCmp byLength :=
  inferInstanceAs (Std.TransCmp (byKey compare String.utf8ByteSize))

instance : Std.TransCmp ignoringCase :=
  inferInstanceAs (Std.TransCmp (byKey compare String.toLower))

theorem isLE_total (order : CellOrder) [Std.TransCmp order] (x y : Option String) :
    ((order x y).isLE || (order y x).isLE) = true := by
  have hswap : order x y = (order y x).swap := Std.OrientedCmp.eq_swap
  rw [hswap]
  cases order y x <;> rfl

/-- Where missing cells come first, only such come before one. -/
theorem eq_none_of_isLE {order : CellOrder} [Std.TransCmp order]
    (hnone : ∀ value, order none (some value) = .lt) {x : Option String}
    (h : (order x none).isLE) : x = none := by
  cases x with
  | none => rfl
  | some value =>
    have hswap : order (some value) none = (order none (some value)).swap :=
      Std.OrientedCmp.eq_swap
    rw [hswap, hnone] at h
    exact absurd h (by decide)

/-- Things in order do not descend from one place to the same or a later one. -/
theorem isLE_of_pairwise {order : CellOrder} [Std.TransCmp order] {f : Nat → Option String}
    {rows : List Nat} (h : rows.Pairwise fun a b => (order (f a) (f b)).isLE) {i k a b : Nat}
    (hik : i ≤ k) (ha : rows[i]? = some a) (hb : rows[k]? = some b) :
    (order (f a) (f b)).isLE := by
  rcases Nat.eq_or_lt_of_le hik with rfl | hlt
  · obtain rfl := Option.some.inj (ha.symm.trans hb)
    have hrefl : order (f a) (f a) = .eq := Std.ReflCmp.compare_self
    rw [hrefl]
    rfl
  · obtain ⟨hi, rfl⟩ := List.getElem?_eq_some_iff.mp ha
    obtain ⟨hk, rfl⟩ := List.getElem?_eq_some_iff.mp hb
    exact List.pairwise_iff_getElem.mp h i k hi hk hlt

end CellOrder

/-! ### The order of rows -/

/-- The places of an order of rows, one for each. -/
theorem exists_perm_of_range {order : List Nat} {n : Nat} (h : order.Perm (List.range n)) :
    ∃ p : Equiv.Perm (Fin n), ∀ i : Fin n, order[i.val]? = some (p i).val := by
  have hlength : order.length = n := h.length_eq.trans List.length_range
  have hnodup : order.Nodup := h.nodup_iff.mpr List.nodup_range
  have hmem : ∀ i : Fin n, order.get (i.cast hlength.symm) < n := fun i =>
    List.mem_range.mp (h.subset (List.get_mem ..))
  have hinj : Function.Injective fun i : Fin n =>
      (⟨order.get (i.cast hlength.symm), hmem i⟩ : Fin n) := by
    intro i k heq
    have hplace := List.nodup_iff_injective_get.mp hnodup (Fin.mk.inj heq)
    exact Fin.ext (Fin.mk.inj hplace)
  refine ⟨Equiv.ofBijective _ (Finite.injective_iff_bijective.mp hinj), fun i => ?_⟩
  exact List.getElem?_eq_getElem (hlength.symm ▸ i.isLt)

theorem swapsOf_eq_nil {order : List Nat} {n : Nat} (h : order.Perm (List.range n)) (hn : n < 2) :
    swapsOf order = [] := by
  obtain rfl | rfl : n = 0 ∨ n = 1 := by omega
  · obtain rfl := h.eq_nil
    rfl
  · obtain rfl := List.perm_singleton.mp h
    rfl

namespace Table

variable {t : Table} {column n : Nat} {order : CellOrder} {c : Column}

/-- There is an order that sorting may bring the rows into. -/
theorem sortOrder_sortedRows (c : Column) (n : Nat) (order : CellOrder) [Std.TransCmp order] :
    SortOrder c n order (sortedRows c n order) := by
  have hperm : (sortedRows c n order).Perm (List.range n) := List.mergeSort_perm ..
  have hkey : ∀ row < n, ((Array.range n).map c.get?)[row]?.getD none = c.get? row := by
    intro row hrow
    simp [hrow]
  have hlt : ∀ row ∈ sortedRows c n order, row < n := fun row hrow =>
    List.mem_range.mp (hperm.subset hrow)
  have hsorted := @List.pairwise_mergeSort Nat
    (fun a b => (order (((Array.range n).map c.get?)[a]?.getD none)
      (((Array.range n).map c.get?)[b]?.getD none)).isLE)
    (fun _ _ _ => Std.TransCmp.isLE_trans) (fun _ _ => order.isLE_total ..) (List.range n)
  refine ⟨hperm, hsorted.imp_of_mem fun ha hb hle => ?_⟩
  rwa [hkey _ (hlt _ ha), hkey _ (hlt _ hb)] at hle

/-- Nothing is sorted where there is no such column, or one row at most. -/
theorem arrange_of_le (rows : List Nat) (h : t.columnCount ≤ column ∨ t.rowCount < 2) :
    t.arrange column rows = t := if_pos h.symm

/-- The same rows of all columns change places. -/
theorem columns_arrange {rows : List Nat} (h : column < t.columnCount)
    (hperm : rows.Perm (List.range t.rowCount)) :
    (t.arrange column rows).columns =
      t.columns.map fun c => c.swapRows (swapsOf rows) t.rowCount := by
  by_cases htwo : t.rowCount < 2
  · have hnone : (fun c : Column => c.swapRows [] t.rowCount) = id :=
      funext fun c => by simp [Column.swapRows]
    rw [arrange_of_le rows (.inr htwo), swapsOf_eq_nil hperm htwo, hnone, Array.map_id]
  · rw [arrange, if_neg (by omega), swapSequence_eq hperm]

theorem columnAt_arrange {rows : List Nat} (h : column < t.columnCount)
    (hperm : rows.Perm (List.range t.rowCount)) (j : Nat) :
    (t.arrange column rows).columnAt j = (t.columnAt j).swapRows (swapsOf rows) t.rowCount := by
  rw [columnAt, columns_arrange h hperm]
  exact columnAt_map t (Column.swapRows_empty ..) j

/-- A sum over the columns stays the same if it does for each of them. -/
theorem foldr_map_columns {f : Column → Column} {size : Column → Nat}
    (h : ∀ c ∈ t.columns, size (f c) = size c) :
    (t.columns.map f).foldr (fun c n => size c + n) 0 =
      t.columns.foldr (fun c n => size c + n) 0 := by
  rw [← Array.foldr_toList, ← Array.foldr_toList, Array.toList_map, List.foldr_map]
  have h : ∀ c ∈ t.columns.toList, size (f c) = size c := fun c hc => h c (Array.mem_toList_iff.mp hc)
  generalize t.columns.toList = columns at h
  induction columns with
  | nil => rfl
  | cons c columns ih =>
    rw [List.forall_mem_cons] at h
    rw [List.foldr_cons, List.foldr_cons, h.1, ih h.2]

/-- The rows are counted without coming round if none is the last that there
can be. -/
theorem rowCount_eq (h : ∀ j, ∀ row ∈ (t.columnAt j).rows, row < lastRow) :
    t.rowCount = t.rowBound := by
  have hlt : ∀ c ∈ t.columns.toList, (c.maxRow?.map (· + 1)).getD 0 ≤ lastRow := by
    intro c hc
    obtain ⟨j, -, rfl⟩ := mem_columns.mp (Array.mem_toList_iff.mp hc)
    cases hmax : (t.columnAt j).maxRow? with
    | none => exact Nat.zero_le _
    | some row => exact h j row (Column.mem_rows_of_maxRow? hmax)
  have hle : t.rowBound ≤ lastRow := by
    rw [rowBound, ← Array.foldl_toList]
    exact (foldl_max_le ..).mpr ⟨Nat.zero_le _, hlt⟩
  exact Nat.mod_eq_of_lt (Nat.lt_succ_of_le hle)

/-- All rows that have a cell are above the row count. -/
theorem lt_rowCount (h : ∀ j, Column.Ascending (t.columnAt j).cells)
    (hlast : ∀ j, ∀ row ∈ (t.columnAt j).rows, row < lastRow) (j : Nat) :
    ∀ row ∈ (t.columnAt j).rows, row < t.rowCount := by
  intro row hrow
  by_cases hj : j < t.columns.size
  · have hmem : t.columnAt j ∈ t.columns := mem_columns.mpr ⟨j, hj, rfl⟩
    rw [rowCount_eq hlast, rowBound, ← Array.foldl_toList]
    obtain ⟨-, hle⟩ := (foldl_max_le t.columns.toList
      (fun c => (c.maxRow?.map (· + 1)).getD 0) 0 _).mp (Nat.le_refl _)
    exact Nat.lt_of_lt_of_le (Column.lt_maxRow? (h j) row hrow)
      (hle _ (Array.mem_toList_iff.mpr hmem))
  · rw [columnAt_of_le (Nat.le_of_not_lt hj)] at hrow
    exact absurd hrow List.not_mem_nil

/-! ### Rows that are sorted -/

/-- What becomes of the rows of a table, where `p` is the row that comes to
stand in each place. -/
structure SortsInto (t t' : Table) (column : Nat) (order : CellOrder)
    (p : Equiv.Perm (Fin t.rowCount)) : Prop where
  /-- Whole rows move, in all columns alike. -/
  get? : ∀ (i : Fin t.rowCount) j, t'.get? i j = t.get? (p i) j
  handle? : ∀ (i : Fin t.rowCount) j, t'.handle? i j = t.handle? (p i) j
  rows_lt : ∀ j, ∀ row ∈ (t'.columnAt j).rows, row < t.rowCount
  /-- The cells of the column do not descend. -/
  sorted : ∀ i k, i ≤ k → k < t.rowCount → (order (t'.get? i column) (t'.get? k column)).isLE
  /-- Missing cells come first in orders in which they do. -/
  missing : (∀ value, order none (some value) = .lt) →
    ∀ i k, i ≤ k → k < t.rowCount → t'.get? k column = none → t'.get? i column = none
  /-- No cell is lost. -/
  size : ∀ j, (t'.columnAt j).size = (t.columnAt j).size
  nonEmptyCount : t'.nonEmptyCount = t.nonEmptyCount

theorem handle?_eq (t : Table) (row column : Nat) :
    t.handle? row column = (t.columnAt column).handle? row := by
  rw [handle?, columnAt]
  cases t.columns[column]? <;> rfl

/-- Where the rows of all columns ascend, and none is the last that there can
be, any order that sorting may give puts whole rows in order. -/
theorem exists_sortsInto (h : ∀ j, (t.columnAt j).rows.Pairwise (· < ·))
    (hlast : ∀ j, ∀ row ∈ (t.columnAt j).rows, row < lastRow) (hcolumn : column < t.columnCount)
    [Std.TransCmp order] {rows : List Nat}
    (hrows : SortOrder (t.columnAt column) t.rowCount order rows) :
    ∃ p, t.SortsInto (t.arrange column rows) column order p := by
  have hcolumns := columns_arrange hcolumn hrows.perm
  have hswap := columnAt_arrange hcolumn hrows.perm
  have hlt := lt_rowCount h hlast
  obtain ⟨p, hp⟩ := exists_perm_of_range hrows.perm
  have hhandle : ∀ (i : Fin t.rowCount) j,
      ((t.arrange column rows).columnAt j).handle? i = (t.columnAt j).handle? (p i) := by
    intro i j
    rw [hswap]
    exact Column.handle?_swapRows (h j) hrows.perm (hp i)
  have hget : ∀ (i : Fin t.rowCount) j,
      (t.arrange column rows).get? i j = t.get? (p i) j := by
    intro i j
    rw [get?_eq, get?_eq, Column.get?, Column.get?, hhandle, hswap, Column.resolve_swapRows]
  have hle : ∀ i k, i ≤ k → k < t.rowCount → (order ((t.arrange column rows).get? i column)
      ((t.arrange column rows).get? k column)).isLE := by
    intro i k hik hk
    have hpair := CellOrder.isLE_of_pairwise hrows.sorted hik
      (hp ⟨i, Nat.lt_of_le_of_lt hik hk⟩) (hp ⟨k, hk⟩)
    rwa [← get?_eq, ← get?_eq, ← hget, ← hget] at hpair
  refine ⟨p, hget, fun i j => ?_, fun j => ?_, hle, fun hnone i k hik hk hmissing => ?_,
    fun j => ?_, ?_⟩
  · rw [handle?_eq, handle?_eq, hhandle]
  · rw [hswap]
    exact Column.rows_swapRows_lt (hlt j) _
  · have hpair := hle i k hik hk
    rw [hmissing] at hpair
    exact CellOrder.eq_none_of_isLE hnone hpair
  · rw [hswap]
    exact Column.size_swapRows (h j) (hlt j) _
  · rw [nonEmptyCount, hcolumns]
    refine foldr_map_columns fun c hc => ?_
    obtain ⟨j, -, rfl⟩ := mem_columns.mp hc
    exact Column.nonEmptyCount_swapRows (h j) (hlt j) _

/-! ### What is sorted -/

theorem blocks_arrange (t : Table) (column : Nat) (rows : List Nat) (j : Nat) :
    ((t.arrange column rows).columnAt j).blocks = (t.columnAt j).blocks := by
  obtain ⟨swaps, harrange⟩ := exists_columnAt_arrange t column rows
  rw [harrange, Column.blocks_swapRows]

theorem columnCount_arrange (t : Table) (column : Nat) (rows : List Nat) :
    (t.arrange column rows).columnCount = t.columnCount := by
  rw [arrange]
  split
  · rfl
  · exact Array.size_map

theorem storageSize_arrange (t : Table) (column : Nat) (rows : List Nat) :
    (t.arrange column rows).storageSize = t.storageSize := by
  rw [arrange]
  split
  · rfl
  · refine foldr_map_columns fun c _ => ?_
    rw [Column.storageSize, Column.blocks_swapRows, Column.storageSize]

/-- Whatever has been done to a table, and whichever of the orders that sorting
may give it is brought into: what it stores stays as it is, and whole rows are
put in order if the rows of all columns ascend and none is the last that there
can be.  They do ascend unless a row was moved down past the last, or rows past
that were dropped while a cell stood in it.  One such order is that in which
rows that compare equal stay in order. -/
theorem sortBy_permutes (config : TableConfig) {changes : List Change}
    (hrows : ∀ change ∈ changes, change.Numbered) (column : Nat) (order : CellOrder)
    [Std.TransCmp order] :
    let t := (empty config).changes changes
    (∀ rows, SortOrder (t.columnAt column) t.rowCount order rows →
      let t' := t.arrange column rows
      (t'.columnCount = t.columnCount ∧ t'.storageSize = t.storageSize ∧
        ∀ j, (t'.columnAt j).blocks = (t.columnAt j).blocks) ∧
      (t.columnCount ≤ column ∨ t.rowCount < 2 → t' = t) ∧
      (column < t.columnCount → (∀ j, (t.columnAt j).rows.Pairwise (· < ·)) →
        (∀ j, ∀ row ∈ (t.columnAt j).rows, row < lastRow) →
        ∃ p, t.SortsInto t' column order p)) ∧
    (∃ rows, SortOrder (t.columnAt column) t.rowCount order rows ∧
      t.sortBy column order = t.arrange column rows) ∧
    ((empty config).SparedBy changes → ∀ j, (t.columnAt j).rows.Pairwise (· < ·)) := by
  intro t
  refine ⟨fun rows horder => ⟨⟨columnCount_arrange .., storageSize_arrange ..,
    blocks_arrange t column rows⟩, arrange_of_le rows, fun hcolumn hascend hlast =>
      exists_sortsInto hascend hlast hcolumn horder⟩, ?_, fun hspared => ?_⟩
  · exact ⟨_, sortOrder_sortedRows (t.columnAt column) t.rowCount order, rfl⟩
  · have hsound : ∀ j, ((empty config).columnAt j).Sound := fun _ => Column.sound_empty
    exact fun j => (sound_changes hsound hrows hspared j).ascending

/-- Four rows, of which two lack the column that is sorted and so compare equal,
brought into either of the orders that there are. -/
theorem sortBy_permutes_sparse :
    let changes : List Change := [.add "b" 0 0, .add "a" 3 0, .add "x" 3 2, .add "y" 1 2]
    let t := (empty {}).changes changes
    (∀ change ∈ changes, change.Numbered) ∧ (empty {}).SparedBy changes ∧ 0 < t.columnCount ∧
      t.rowCount = 4 ∧ (∀ j, ∀ row ∈ (t.columnAt j).rows, row < lastRow) ∧
      (∃ p, t.SortsInto (t.arrange 0 [1, 2, 3, 0]) 0 .ascending p) ∧
      (∃ p, t.SortsInto (t.arrange 0 [2, 1, 3, 0]) 0 .ascending p) := by
  intro changes t
  have hrows : ∀ change ∈ changes, change.Numbered := by
    simp [changes, Change.Numbered, lastRow]
  have hspared : (empty {}).SparedBy changes := by simp [changes, SparedBy, Change.Spares]
  have hcolumn : 0 < t.columnCount := by decide +kernel
  have hcount : t.rowCount = 4 := by decide +kernel
  have hsize : t.columns.size = 3 := by decide +kernel
  have hlast : ∀ j, ∀ row ∈ (t.columnAt j).rows, row < lastRow := by
    intro j
    rcases Nat.lt_or_ge j 3 with hj | hj
    · revert j
      decide +kernel
    · rw [columnAt_of_le (hsize.trans_le hj)]
      exact fun row hrow => absurd hrow List.not_mem_nil
  have horder : SortOrder (t.columnAt 0) 4 .ascending [1, 2, 3, 0] :=
    ⟨by decide, by decide +kernel⟩
  have horder' : SortOrder (t.columnAt 0) 4 .ascending [2, 1, 3, 0] :=
    ⟨by decide, by decide +kernel⟩
  rw [← hcount] at horder horder'
  obtain ⟨hsorts, -, hascend⟩ := sortBy_permutes {} hrows 0 .ascending
  exact ⟨hrows, hspared, hcolumn, hcount, hlast,
    (hsorts _ horder).2.2 hcolumn (hascend hspared) hlast,
    (hsorts _ horder').2.2 hcolumn (hascend hspared) hlast⟩

/-- Where a cell has come to stand in a row that has one already, one of them
is lost. -/
example :
    let changes : List Change :=
      [.add "y" 0 0, .add "z" 1 0, .add "x" lastRow 0, .add "b" 0 1, .add "a" 1 1,
        .removeRows 2 lastRow]
    let t := (empty {}).changes changes
    t.rowCount = 2 ∧ t.rowsOf 0 = [(0, "y"), (1, "z"), (0, "x")] ∧
      (t.arrange 1 [1, 0]).rowsOf 0 = [(0, "z"), (1, "x")] := by
  intro changes t
  exact ⟨by decide +kernel, by decide +kernel, by decide +kernel⟩

end Table

end Tabular
