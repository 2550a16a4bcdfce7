/-
The handles of cells that are set, moved, put in another order or dropped.

* `Column.handles_add` — a text that is put into a row makes one handle;
* `Column.handles_insertRows`, `Column.handles_removeRows`,
  `Column.handles_swapRows` — no change of the rows of a column makes a handle,
  and none gives two cells the handle that one cell had;
* `Column.ascending_ofDense` — the cells of an array of handles ascend,
  whatever they did before;
* `Column.Sound.swapRows`, `Column.Sound.removeRows_of_lt_lastRow` — a column
  stays sound when its cells change places, and when rows past the last that
  there can be are dropped, if no cell stands there.
-/
import Mathlib.Data.List.Perm.Subperm
import Tabular.Table.Sort
import Tabular.Proofs.Table.Cells

namespace Tabular.Column

variable {c : Column}

/-- The handles of the cells, by row. -/
def handles (c : Column) : List Handle := c.cells.toList.map Prod.snd

/-! ### Cells that are set, moved or dropped -/

/-- The handle of a cell takes the place of one of the others, or of none. -/
theorem handles_add (c : Column) (config : TableConfig) (value : String) (row : Nat) :
    (c.add config value row).handles.Subperm ((store config value c.blocks).1 :: c.handles) := by
  have hle : placeOf c.cells row ≤ c.cells.size := by
    have : placeOf c.cells row ≤ 0 + c.cells.size := bisect_le
    omega
  rw [handles, cells_add, setRow]
  split
  · rename_i hany
    have hlt : placeOf c.cells row < c.cells.toList.length := by
      rw [Array.length_toList]
      by_contra hge
      rw [Array.getElem?_eq_none (Nat.le_of_not_lt hge)] at hany
      simp at hany
    rw [Array.toList_setIfInBounds]
    have hperm := (List.set_perm_cons_eraseIdx hlt (row, (store config value c.blocks).1)).map
      Prod.snd
    have hothers := (List.eraseIdx_sublist c.cells.toList (placeOf c.cells row)).map Prod.snd
    exact hperm.subperm.trans ((List.subperm_cons _).mpr hothers.subperm)
  · rw [Array.insertIdxIfInBounds, dif_pos hle, Array.toList_insertIdx]
    exact ((List.perm_insertIdx _ c.cells.toList hle).map Prod.snd).subperm

theorem handles_insertRows (c : Column) (row count : Nat) :
    (c.insertRows row count).handles = c.handles := by
  have hmove : Prod.snd ∘ (fun cell : Nat × Handle => (rowBelow cell.1 count, cell.2)) = Prod.snd := rfl
  conv_rhs => rw [handles, ← List.take_append_drop (placeOf c.cells row) c.cells.toList]
  rw [handles, insertRows, Array.toList_append, List.map_append, Array.toList_map, List.map_map,
    hmove, List.map_append, cellsBefore, cellsFrom]
  simp [List.take_of_length_le]

/-- Whether or not the rows ascend, those from a later row on are among those
from an earlier row on. -/
theorem handles_removeRows (c : Column) {row : Nat} (hrow : row ≤ lastRow) (count : Nat) :
    (c.removeRows row count).handles.Sublist c.handles := by
  have hmove : Prod.snd ∘ (fun cell : Nat × Handle => (rowAbove cell.1 count, cell.2)) =
    Prod.snd := rfl
  have hle : placeOf c.cells row ≤ placeOf c.cells (min (row + count) lastRow) :=
    bisect_mono (Nat.le_min.mpr ⟨Nat.le_add_right .., hrow⟩)
  have hcells : (c.removeRows row count).handles =
      (c.cells.toList.take (placeOf c.cells row)).map Prod.snd ++
        (c.cells.toList.drop (placeOf c.cells (min (row + count) lastRow))).map Prod.snd := by
    rw [handles, removeRows, Array.toList_append, List.map_append, Array.toList_map, List.map_map,
      hmove, cellsBefore, cellsFrom]
    simp [List.take_of_length_le]
  rw [hcells, ← List.map_append, handles]
  refine List.Sublist.map _ ?_
  conv_rhs => rw [← List.take_append_drop (placeOf c.cells row) c.cells.toList]
  exact (List.Sublist.refl _).append (List.drop_sublist_drop_left _ hle)

/-! ### Cells that are put in another order -/

theorem toList_ofDense (xs : Array (Option Handle)) :
    (ofDense xs).toList = xs.toList.zipIdx.filterMap fun (h, r) => h.map fun h => (r, h) := by
  rw [ofDense, Array.toList_filterMap, Array.toList_zipIdx]

theorem handles_ofDense (xs : Array (Option Handle)) :
    (ofDense xs).toList.map Prod.snd = xs.toList.filterMap id := by
  rw [toList_ofDense, List.map_filterMap]
  conv_rhs => rw [← List.zipIdx_map_fst 0 xs.toList, List.filterMap_map]
  refine List.filterMap_congr fun ⟨h, r⟩ _ => ?_
  cases h <;> rfl

/-- The rows of an array of handles ascend. -/
theorem ascending_ofDense (xs : Array (Option Handle)) : Ascending (ofDense xs) := by
  have hrows : (xs.toList.zipIdx.map Prod.snd).Pairwise (· < ·) := by
    rw [List.zipIdx_map_snd]
    exact List.pairwise_lt_range'
  rw [Ascending, toList_ofDense, List.map_filterMap, List.pairwise_filterMap]
  refine (List.pairwise_map.mp hrows).imp ?_
  rintro ⟨h, r⟩ ⟨h', r'⟩ hlt row hrow row' hrow'
  cases h <;> cases h' <;> simp_all

theorem mem_ofDense {xs : Array (Option Handle)} {i : Nat} {handle : Handle} :
    (i, handle) ∈ (ofDense xs).toList ↔ xs[i]? = some (some handle) := by
  rw [toList_ofDense, List.mem_filterMap]
  constructor
  · rintro ⟨⟨x, row⟩, hmem, hx⟩
    obtain ⟨handle', rfl, heq⟩ := Option.map_eq_some_iff.mp hx
    obtain ⟨rfl, rfl⟩ := Prod.mk.inj heq
    rw [← Array.getElem?_toList]
    exact List.mem_zipIdx_iff_getElem?.mp hmem
  · intro hx
    rw [← Array.getElem?_toList] at hx
    exact ⟨(some handle, i), List.mem_zipIdx_iff_getElem?.mpr hx, rfl⟩

theorem size_dense (c : Column) (n : Nat) : (c.dense n).size = n := by
  rw [dense]
  refine Array.foldl_induction (fun _ (xs : Array (Option Handle)) => xs.size = n)
    Array.size_replicate ?_
  intro _ xs hxs
  rwa [Array.size_setIfInBounds]

theorem applySwaps_perm {α : Type} (swaps : List (Nat × Nat)) (xs : Array α) :
    (applySwaps swaps xs).Perm xs := by
  induction swaps generalizing xs with
  | nil => exact Array.Perm.refl xs
  | cons swap swaps ih =>
    refine (ih _).trans ?_
    dsimp only
    rw [Array.swapIfInBounds_def]
    split
    · split
      · exact Array.swap_perm _ _
      · exact .refl xs
    · exact .refl xs

/-- Handles that are put in their rows are those that were put there, less
those whose row is past the end or has another. -/
theorem filterMap_foldl_setIfInBounds (cells : List (Nat × Handle)) (xs : Array (Option Handle)) :
    ((cells.foldl (fun xs cell => xs.setIfInBounds cell.1 (some cell.2)) xs).toList.filterMap
      id).Subperm (cells.map Prod.snd ++ xs.toList.filterMap id) := by
  induction cells generalizing xs with
  | nil => exact List.Subperm.refl _
  | cons cell cells ih =>
    have hset : ((xs.setIfInBounds cell.1 (some cell.2)).toList.filterMap id).Subperm
        (cell.2 :: xs.toList.filterMap id) := by
      rw [Array.toList_setIfInBounds]
      by_cases hlt : cell.1 < xs.toList.length
      · have hperm := (List.set_perm_cons_eraseIdx hlt (some cell.2)).filterMap id
        have hfirst : (some cell.2 :: xs.toList.eraseIdx cell.1).filterMap id =
            cell.2 :: (xs.toList.eraseIdx cell.1).filterMap id := rfl
        rw [hfirst] at hperm
        have hothers := (List.eraseIdx_sublist xs.toList cell.1).filterMap id
        exact hperm.subperm.trans ((List.subperm_cons _).mpr hothers.subperm)
      · rw [List.set_eq_of_length_le (Nat.le_of_not_lt hlt)]
        exact (List.sublist_cons_self ..).subperm
    have hcons : (cells.map Prod.snd ++ cell.2 :: xs.toList.filterMap id).Perm
        (cell.2 :: cells.map Prod.snd ++ xs.toList.filterMap id) := List.perm_middle
    rw [List.foldl_cons, List.map_cons]
    refine (ih _).trans (List.Subperm.trans ?_ hcons.subperm)
    exact (List.subperm_append_left _).mpr hset

/-- Cells that change places keep their handles, as far as they outlive it. -/
theorem handles_swapRows (c : Column) (swaps : List (Nat × Nat)) (rowCount : Nat) :
    (c.swapRows swaps rowCount).handles.Subperm c.handles := by
  rw [swapRows]
  split
  · exact List.Subperm.refl _
  · have hswaps := (applySwaps_perm swaps (c.dense rowCount)).toList.filterMap id
    have hdense := filterMap_foldl_setIfInBounds c.cells.toList (Array.replicate rowCount none)
    have hnone : (Array.replicate rowCount (none : Option Handle)).toList.filterMap id = [] := by
      simp
    rw [hnone, List.append_nil, Array.foldl_toList] at hdense
    rw [handles, handles_ofDense]
    exact hswaps.subperm.trans hdense

@[simp] theorem blocks_swapRows (c : Column) (swaps : List (Nat × Nat)) (rowCount : Nat) :
    (c.swapRows swaps rowCount).blocks = c.blocks := by
  rw [swapRows]
  split <;> rfl

@[simp] theorem swapRows_empty (swaps : List (Nat × Nat)) (rowCount : Nat) :
    empty.swapRows swaps rowCount = empty := rfl

/-! ### Rows that ascend -/

namespace Sound

theorem of_handles {c' : Column} (h : c.Sound) (hasc : Ascending c'.cells)
    (hrows : ∀ cell ∈ c'.cells.toList, cell.1 ≤ lastRow) (hblocks : c'.blocks = c.blocks)
    (hhandles : c'.handles ⊆ c.handles) : c'.Sound := by
  refine ⟨hasc, hrows, fun cell hcell => ?_⟩
  obtain ⟨old, hold, heq⟩ := List.mem_map.mp (hhandles (List.mem_map_of_mem hcell))
  rw [hblocks, ← heq]
  exact h.good old hold

theorem swapRows (h : c.Sound) (swaps : List (Nat × Nat)) {rowCount : Nat}
    (hcount : rowCount ≤ lastRow) : (c.swapRows swaps rowCount).Sound := by
  have hhandles := (handles_swapRows c swaps rowCount).subset
  rw [Column.swapRows] at hhandles ⊢
  split at hhandles
  · rename_i hnone
    rwa [if_pos hnone]
  · rename_i hsome
    rw [if_neg hsome]
    refine h.of_handles (ascending_ofDense _) (fun cell hcell => ?_) rfl hhandles
    obtain ⟨hlt, -⟩ := Array.getElem?_eq_some_iff.mp (mem_ofDense.mp hcell)
    rw [(applySwaps_perm swaps _).size_eq, size_dense] at hlt
    omega

/-- Rows past the last one can be dropped if no cell stands in it. -/
theorem removeRows_of_lt_lastRow (h : c.Sound) {row count : Nat} (hrow : row ≤ lastRow)
    (hpast : lastRow < row + count) (hc : ∀ cell ∈ c.cells.toList, cell.1 < lastRow) :
    (c.removeRows row count).Sound := by
  have hnone : c.cellsFrom (min (row + count) lastRow) = #[] := by
    have hdrop := drop_placeOf h.ascending lastRow
    rw [List.filter_eq_nil_iff.mpr fun cell hcell => by simpa using hc cell hcell] at hdrop
    rw [Nat.min_eq_right (Nat.le_of_lt hpast), cellsFrom]
    exact Array.toList_inj.mp (by simpa [List.take_of_length_le] using hdrop)
  have hcells : (c.removeRows row count).cells.toList =
      c.cells.toList.take (placeOf c.cells row) := by
    rw [Column.removeRows, hnone]
    simp [cellsBefore]
  refine h.of_handles ?_ (fun cell hcell => ?_) rfl (handles_removeRows c hrow count).subset
  · rw [Ascending, hcells]
    exact h.ascending.of_sublist (List.take_sublist ..)
  · exact h.numbered cell (List.take_subset _ _ (hcells ▸ hcell))

end Sound

end Tabular.Column
