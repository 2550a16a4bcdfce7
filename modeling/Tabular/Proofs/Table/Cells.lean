/-
The cells of a column: found, put, moved and dropped by row.

* `Column.Sound` — rows ascend up to the last that there can be, every handle
  is good, and the empty handle is that of the empty text;
* `Column.HasRoom` — no row is moved down past the last that there can be;
* `take_placeOf`, `drop_placeOf` — bisection parts the cells above a row from
  the others;
* `Sound.get?_eq_some` — a cell is found just if it is among the cells;
* `Sound.add`, `Sound.insertRows`, `Sound.removeRows` — a column stays sound;
* `Sound.get?_add`, `Sound.get?_insertRows`, `Sound.get?_removeRows` — and what
  is in its rows then.

Design notes: the two parts are stated as filters of the cells, so that what is
in a row after a change is read off the condition of a filter.
-/
import Mathlib.Data.List.Basic
import Tabular.Proofs.Table.Column

namespace Tabular.Column

/-! ### The place of a row -/

variable {cells : Array (Nat × Handle)} {row : Nat}

/-- The cells are in ascending order of row, each row once. -/
def Ascending (cells : Array (Nat × Handle)) : Prop := (cells.toList.map Prod.fst).Pairwise (· < ·)

theorem rowAt_eq {place : Nat} (h : place < cells.size) : rowAt cells place = cells[place].1 := by
  rw [rowAt, Array.getElem?_eq_getElem h]
  rfl

theorem Ascending.ascendsOn (h : Ascending cells) : AscendsOn (rowAt cells) 0 cells.size := by
  intro i j _ hij hj
  rw [Nat.zero_add] at hj
  have hrows := List.pairwise_iff_getElem.mp h i j (by simpa using Nat.lt_trans hij hj)
    (by simpa using hj) hij
  rw [rowAt_eq (Nat.lt_trans hij hj), rowAt_eq hj]
  simpa only [List.getElem_map, Array.getElem_toList] using hrows

theorem Ascending.of_sublist {cells' : List (Nat × Handle)} (h : Ascending cells)
    (hs : cells'.Sublist cells.toList) : (cells'.map Prod.fst).Pairwise (· < ·) :=
  List.Pairwise.sublist (hs.map _) h

/-- What stands before the place of a row is above that row. -/
theorem lt_of_mem_take (h : Ascending cells) {cell : Nat × Handle}
    (hc : cell ∈ cells.toList.take (placeOf cells row)) : cell.1 < row := by
  obtain ⟨i, hi, rfl⟩ := List.mem_take_iff_getElem.mp hc
  rw [Nat.lt_min, Array.length_toList] at hi
  have hlt := lt_of_lt_bisect h.ascendsOn (Nat.zero_le i) hi.1
  rwa [rowAt_eq hi.2] at hlt

/-- What stands from the place of a row on is not above that row. -/
theorem le_of_mem_drop (h : Ascending cells) {cell : Nat × Handle}
    (hc : cell ∈ cells.toList.drop (placeOf cells row)) : row ≤ cell.1 := by
  obtain ⟨i, hi, rfl⟩ := List.mem_drop_iff_getElem.mp hc
  rw [Array.length_toList] at hi
  have hi' : placeOf cells row + i < cells.size := by omega
  have hle : row ≤ rowAt cells (placeOf cells row + i) :=
    le_of_bisect_le h.ascendsOn (Nat.le_add_right ..) (by omega)
  rwa [rowAt_eq hi'] at hle

theorem take_placeOf (h : Ascending cells) (row : Nat) :
    cells.toList.take (placeOf cells row) = cells.toList.filter fun cell => cell.1 < row := by
  conv_rhs => rw [← List.take_append_drop (placeOf cells row) cells.toList]
  rw [List.filter_append, List.filter_eq_self.mpr, List.filter_eq_nil_iff.mpr, List.append_nil]
  · intro cell hc
    simpa using le_of_mem_drop h hc
  · intro cell hc
    simpa using lt_of_mem_take h hc

theorem drop_placeOf (h : Ascending cells) (row : Nat) :
    cells.toList.drop (placeOf cells row) = cells.toList.filter fun cell => row ≤ cell.1 := by
  conv_rhs => rw [← List.take_append_drop (placeOf cells row) cells.toList]
  rw [List.filter_append, List.filter_eq_nil_iff.mpr, List.filter_eq_self.mpr, List.nil_append]
  · intro cell hc
    simpa using le_of_mem_drop h hc
  · intro cell hc
    simpa using lt_of_mem_take h hc

/-- A row that has a cell has it at its place. -/
theorem getElem?_placeOf (h : Ascending cells) {handle : Handle}
    (hc : (row, handle) ∈ cells.toList) : cells[placeOf cells row]? = some (row, handle) := by
  have hmem : (row, handle) ∈ cells.toList.drop (placeOf cells row) := by
    rw [drop_placeOf h]
    exact List.mem_filter.mpr ⟨hc, by simp⟩
  have hasc := h.of_sublist (List.drop_sublist (placeOf cells row) _)
  rw [← Array.getElem?_toList, ← List.head?_drop]
  cases hd : cells.toList.drop (placeOf cells row) with
  | nil => simp [hd] at hmem
  | cons first rest =>
    rw [hd] at hmem hasc
    rcases List.mem_cons.mp hmem with rfl | hmem
    · rfl
    · -- A cell further on would be below the first, which is not above the row.
      have hlt : first.1 < row := (List.pairwise_cons.mp hasc).1 _ (List.mem_map_of_mem hmem)
      have hle : row ≤ first.1 := le_of_mem_drop h (hd ▸ List.mem_cons_self ..)
      omega

/-- A cell is found just if it is there. -/
theorem handle?_eq_some {c : Column} (h : Ascending c.cells) {handle : Handle} :
    c.handle? row = some handle ↔ (row, handle) ∈ c.cells.toList := by
  constructor
  · intro hh
    obtain ⟨⟨r, x⟩, hcell, hx⟩ := Option.bind_eq_some_iff.mp hh
    obtain ⟨rfl, rfl⟩ : r = row ∧ x = handle := by simpa using hx
    exact Array.mem_toList_iff.mpr (Array.mem_of_getElem? hcell)
  · intro hc
    rw [handle?, getElem?_placeOf h hc]
    simp

/-- From the place of a row that has a cell on, the cell and those below it. -/
theorem drop_placeOf_of_mem (h : Ascending cells) {handle : Handle}
    (hc : (row, handle) ∈ cells.toList) :
    cells.toList.drop (placeOf cells row) =
      (row, handle) :: cells.toList.filter fun cell => row < cell.1 := by
  obtain ⟨above, below, hsplit⟩ := List.append_of_mem hc
  have hasc : ((above ++ (row, handle) :: below).map Prod.fst).Pairwise (· < ·) := hsplit ▸ h
  rw [List.map_append, List.map_cons, List.pairwise_append, List.pairwise_cons] at hasc
  obtain ⟨-, ⟨hbelow, -⟩, habove⟩ := hasc
  have habove : ∀ cell ∈ above, cell.1 < row := fun cell hcell =>
    habove _ (List.mem_map_of_mem hcell) _ (List.mem_cons_self ..)
  have hbelow : ∀ cell ∈ below, row < cell.1 := fun cell hcell =>
    hbelow _ (List.mem_map_of_mem hcell)
  have hnone : above.filter (fun cell => row ≤ cell.1) = [] ∧
      above.filter (fun cell => row < cell.1) = [] := by
    constructor <;> refine List.filter_eq_nil_iff.mpr fun cell hcell => ?_ <;>
      have := habove cell hcell <;> simp <;> omega
  have hall : below.filter (fun cell => row ≤ cell.1) = below ∧
      below.filter (fun cell => row < cell.1) = below := by
    constructor <;> refine List.filter_eq_self.mpr fun cell hcell => ?_ <;>
      have := hbelow cell hcell <;> simp <;> omega
  rw [drop_placeOf h, hsplit, List.filter_append, List.filter_append, hnone.1, hnone.2,
    List.filter_cons_of_pos (by simp), List.filter_cons_of_neg (by simp), hall.1, hall.2]
  rfl

/-- From the place of a row that has no cell on, the cells below it. -/
theorem drop_placeOf_of_not_mem (h : Ascending cells)
    (hc : ∀ handle, (row, handle) ∉ cells.toList) :
    cells.toList.drop (placeOf cells row) = cells.toList.filter fun cell => row < cell.1 := by
  rw [drop_placeOf h]
  refine List.filter_congr fun cell hcell => decide_eq_decide.mpr ?_
  have hne : cell.1 ≠ row := by
    rintro rfl
    exact hc cell.2 hcell
  omega

theorem insertIdx_length {α : Type} (xs ys : List α) (x : α) :
    (xs ++ ys).insertIdx xs.length x = xs ++ x :: ys := by
  induction xs with
  | nil => rfl
  | cons y xs ih => exact congrArg (y :: ·) ih

/-- The cell of a row comes between those above it and those below. -/
theorem toList_setRow (h : Ascending cells) (row : Nat) (handle : Handle) :
    (setRow cells row handle).toList =
      (cells.toList.filter fun cell => cell.1 < row) ++
        (row, handle) :: cells.toList.filter fun cell => row < cell.1 := by
  have hle : placeOf cells row ≤ cells.size := by
    have : placeOf cells row ≤ 0 + cells.size := bisect_le
    omega
  rw [← take_placeOf h, setRow]
  by_cases hrow : ∃ old, (row, old) ∈ cells.toList
  · obtain ⟨old, hold⟩ := hrow
    have hdrop := drop_placeOf_of_mem h hold
    have hlt : placeOf cells row < cells.toList.length := by
      by_contra hge
      rw [List.drop_of_length_le (Nat.le_of_not_lt hge)] at hdrop
      simp at hdrop
    rw [getElem?_placeOf h hold, if_pos (by simp), Array.toList_setIfInBounds,
      List.set_eq_take_append_cons_drop, if_pos hlt, ← List.tail_drop, hdrop, List.tail_cons]
  · have hrow : ∀ old, (row, old) ∉ cells.toList := fun old hold => hrow ⟨old, hold⟩
    have hnone : ¬ cells[placeOf cells row]?.any (·.1 == row) := by
      simp only [Option.any_eq_true, not_exists, not_and, beq_iff_eq]
      rintro ⟨r, old⟩ hcell rfl
      exact hrow old (Array.mem_toList_iff.mpr (Array.mem_of_getElem? hcell))
    have hlen : (cells.toList.take (placeOf cells row)).length = placeOf cells row := by
      rw [List.length_take, Array.length_toList, Nat.min_eq_left hle]
    rw [if_neg hnone, Array.insertIdxIfInBounds, dif_pos hle, Array.toList_insertIdx,
      ← drop_placeOf_of_not_mem h hrow]
    conv_lhs => rw [← List.take_append_drop (placeOf cells row) cells.toList]
    conv_lhs => arg 2; rw [← hlen]
    exact insertIdx_length ..

/-! ### Columns that are sound -/

/-- A handle is good for a text, and is the empty handle just if that is
empty. -/
def Good (blocks : Array Block) (handle : Handle) : Prop :=
  ∃ v, Resolves blocks handle v ∧ (handle = .empty ↔ v = "")

/-- What is true of a column as long as its rows keep their order. -/
structure Sound (c : Column) : Prop where
  ascending : Ascending c.cells
  numbered : ∀ cell ∈ c.cells.toList, cell.1 ≤ lastRow
  good : ∀ cell ∈ c.cells.toList, Good c.blocks cell.2

variable {c : Column} {config : TableConfig} {value : String}

/-- The rows from `row` on can be moved down by `count` without any of them
coming past the last row that there can be. -/
def HasRoom (c : Column) (row count : Nat) : Prop := ∀ r ∈ c.rows, row ≤ r → r + count ≤ lastRow

instance (c : Column) (row count : Nat) : Decidable (c.HasRoom row count) :=
  inferInstanceAs (Decidable (∀ r ∈ c.rows, row ≤ r → r + count ≤ lastRow))

theorem sound_empty : Sound empty := ⟨.nil, by simp [empty], by simp [empty]⟩

theorem good_store (blocks : Array Block) (config : TableConfig) (value : String) :
    Good (store config value blocks).2 (store config value blocks).1 := by
  refine ⟨value, resolves_store_self, ?_⟩
  rw [store]
  split
  · rename_i hv
    simpa using hv
  · rename_i hv
    have hv : value ≠ "" := mt String.isEmpty_iff.mpr hv
    dsimp only
    split <;> simp [hv]

theorem Good.store {blocks : Array Block} {handle : Handle} (h : Good blocks handle) :
    Good (Column.store config value blocks).2 handle := by
  obtain ⟨v, hv, hempty⟩ := h
  exact ⟨v, resolves_store_of hv, hempty⟩

theorem cells_add (c : Column) (config : TableConfig) (value : String) (row : Nat) :
    (c.add config value row).cells = setRow c.cells row (store config value c.blocks).1 := rfl

theorem blocks_add (c : Column) (config : TableConfig) (value : String) (row : Nat) :
    (c.add config value row).blocks = (store config value c.blocks).2 := rfl

theorem toList_insertRows (h : Ascending c.cells) {row count : Nat} (hroom : c.HasRoom row count) :
    (c.insertRows row count).cells.toList =
      (c.cells.toList.filter fun cell => cell.1 < row) ++
        (c.cells.toList.filter fun cell => row ≤ cell.1).map fun cell =>
          (cell.1 + count, cell.2) := by
  have hmoved : ∀ cell ∈ c.cells.toList.filter fun cell => row ≤ cell.1,
      (cell.1 + count, cell.2) = (rowBelow cell.1 count, cell.2) := by
    intro cell hcell
    obtain ⟨hcell, hle⟩ := List.mem_filter.mp hcell
    rw [rowBelow_of_le (hroom _ (List.mem_map_of_mem hcell) (of_decide_eq_true hle))]
  rw [List.map_congr_left hmoved, ← take_placeOf h, ← drop_placeOf h]
  simp [insertRows, cellsBefore, cellsFrom, List.take_of_length_le]

theorem toList_removeRows (h : c.Sound) {row count : Nat} (hle : row + count ≤ lastRow) :
    (c.removeRows row count).cells.toList =
      (c.cells.toList.filter fun cell => cell.1 < row) ++
        (c.cells.toList.filter fun cell => row + count ≤ cell.1).map fun cell =>
          (cell.1 - count, cell.2) := by
  have hmoved : ∀ cell ∈ c.cells.toList.filter fun cell => row + count ≤ cell.1,
      (cell.1 - count, cell.2) = (rowAbove cell.1 count, cell.2) := by
    intro cell hcell
    obtain ⟨hcell, hfrom⟩ := List.mem_filter.mp hcell
    have hfrom : row + count ≤ cell.1 := of_decide_eq_true hfrom
    rw [rowAbove_of_le (h.numbered cell hcell) (by omega)]
  rw [List.map_congr_left hmoved, ← take_placeOf h.ascending, ← drop_placeOf h.ascending]
  simp [removeRows, cellsBefore, cellsFrom, Nat.min_eq_left hle, List.take_of_length_le]

/-- Where there are no cells, none move. -/
@[simp] theorem insertRows_empty (row count : Nat) : empty.insertRows row count = empty := by
  simp [insertRows, cellsBefore, cellsFrom, empty]

@[simp] theorem removeRows_empty (row count : Nat) : empty.removeRows row count = empty := by
  simp [removeRows, cellsBefore, cellsFrom, empty]

theorem pairwise_append {xs ys : List (Nat × Handle)} (hx : (xs.map Prod.fst).Pairwise (· < ·))
    (hy : (ys.map Prod.fst).Pairwise (· < ·)) (h : ∀ x ∈ xs, ∀ y ∈ ys, x.1 < y.1) :
    ((xs ++ ys).map Prod.fst).Pairwise (· < ·) := by
  rw [List.map_append, List.pairwise_append]
  refine ⟨hx, hy, ?_⟩
  simpa only [List.forall_mem_map] using h

namespace Sound

/-- Some of the cells ascend as all of them do. -/
theorem filter (h : c.Sound) (p : Nat × Handle → Bool) :
    ((c.cells.toList.filter p).map Prod.fst).Pairwise (· < ·) :=
  h.ascending.of_sublist List.filter_sublist

/-- They still do when all are moved by as many rows. -/
theorem filter_map (h : c.Sound) (p : Nat × Handle → Bool) (move : Nat → Nat)
    (hmove : ∀ cell ∈ c.cells.toList, p cell → ∀ cell' ∈ c.cells.toList, p cell' →
      cell.1 < cell'.1 → move cell.1 < move cell'.1) :
    (((c.cells.toList.filter p).map fun cell => (move cell.1, cell.2)).map Prod.fst).Pairwise
      (· < ·) := by
  have hasc := List.pairwise_map.mp (h.filter p)
  rw [List.map_map, List.pairwise_map]
  refine hasc.imp_of_mem fun {cell cell'} hcell hcell' hlt => ?_
  have hcell := List.mem_filter.mp hcell
  have hcell' := List.mem_filter.mp hcell'
  exact hmove cell hcell.1 hcell.2 cell' hcell'.1 hcell'.2 hlt

theorem add (h : c.Sound) {row : Nat} (hrow : row ≤ lastRow) :
    (c.add config value row).Sound := by
  have hset := toList_setRow h.ascending row (store config value c.blocks).1
  refine ⟨?_, ?_, ?_⟩
  · rw [cells_add, Ascending, hset]
    refine pairwise_append (h.filter _) ?_ ?_
    · rw [List.map_cons, List.pairwise_cons]
      exact ⟨by simp, h.filter _⟩
    · intro above habove cell hcell
      have habove : above.1 < row := by simpa using (List.mem_filter.mp habove).2
      rcases List.mem_cons.mp hcell with rfl | hcell
      · exact habove
      · have : row < cell.1 := by simpa using (List.mem_filter.mp hcell).2
        omega
  · intro cell hcell
    rw [cells_add, hset, List.mem_append, List.mem_cons] at hcell
    rcases hcell with hcell | rfl | hcell
    · exact h.numbered cell (List.mem_filter.mp hcell).1
    · exact hrow
    · exact h.numbered cell (List.mem_filter.mp hcell).1
  · intro cell hcell
    rw [cells_add, hset, List.mem_append, List.mem_cons] at hcell
    rw [blocks_add]
    rcases hcell with hcell | rfl | hcell
    · exact (h.good cell (List.mem_filter.mp hcell).1).store
    · exact good_store ..
    · exact (h.good cell (List.mem_filter.mp hcell).1).store

theorem insertRows (h : c.Sound) {row count : Nat} (hroom : c.HasRoom row count) :
    (c.insertRows row count).Sound := by
  have hcells := toList_insertRows h.ascending hroom
  refine ⟨?_, ?_, ?_⟩
  · rw [Ascending, hcells]
    refine pairwise_append (h.filter _) (h.filter_map _ (· + count) ?_) ?_
    · intros
      omega
    · simp only [List.forall_mem_map, List.mem_filter, decide_eq_true_eq, and_imp]
      intros
      omega
  · intro cell hcell
    rw [hcells, List.mem_append, List.mem_map] at hcell
    rcases hcell with hcell | ⟨cell', hcell, rfl⟩
    · exact h.numbered cell (List.mem_filter.mp hcell).1
    · obtain ⟨hcell, hle⟩ := List.mem_filter.mp hcell
      exact hroom _ (List.mem_map_of_mem hcell) (of_decide_eq_true hle)
  · intro cell hcell
    rw [hcells, List.mem_append, List.mem_map] at hcell
    rcases hcell with hcell | ⟨cell', hcell, rfl⟩
    · exact h.good cell (List.mem_filter.mp hcell).1
    · exact h.good cell' (List.mem_filter.mp hcell).1

theorem removeRows (h : c.Sound) {row count : Nat} (hle : row + count ≤ lastRow) :
    (c.removeRows row count).Sound := by
  have hcells := toList_removeRows h hle
  refine ⟨?_, ?_, ?_⟩
  · rw [Ascending, hcells]
    refine pairwise_append (h.filter _) (h.filter_map _ (· - count) ?_) ?_
    · simp only [decide_eq_true_eq]
      intros
      omega
    · simp only [List.forall_mem_map, List.mem_filter, decide_eq_true_eq, and_imp]
      intros
      omega
  · intro cell hcell
    rw [hcells, List.mem_append, List.mem_map] at hcell
    rcases hcell with hcell | ⟨cell', hcell, rfl⟩
    · exact h.numbered cell (List.mem_filter.mp hcell).1
    · exact (Nat.sub_le ..).trans (h.numbered cell' (List.mem_filter.mp hcell).1)
  · intro cell hcell
    rw [hcells, List.mem_append, List.mem_map] at hcell
    rcases hcell with hcell | ⟨cell', hcell, rfl⟩
    · exact h.good cell (List.mem_filter.mp hcell).1
    · exact h.good cell' (List.mem_filter.mp hcell).1

end Sound

/-! ### What is in a row -/

namespace Sound

/-- A cell is found just if it is among the cells. -/
theorem get?_eq_some (h : c.Sound) {row : Nat} {v : String} :
    c.get? row = some v ↔ (row, v) ∈ c.toList := by
  rw [get?, toList, Option.map_eq_some_iff, List.mem_map]
  constructor
  · rintro ⟨handle, hhandle, rfl⟩
    exact ⟨(row, handle), (handle?_eq_some h.ascending).mp hhandle, rfl⟩
  · rintro ⟨⟨r, handle⟩, hcell, heq⟩
    obtain ⟨rfl, rfl⟩ : r = row ∧ c.resolve handle = v := by simpa using heq
    exact ⟨handle, (handle?_eq_some h.ascending).mpr hcell, rfl⟩

/-- The rows that have a cell ascend. -/
theorem rows_ascend (h : c.Sound) : (c.toList.map Prod.fst).Pairwise (· < ·) := by
  have hrows : c.toList.map Prod.fst = c.cells.toList.map Prod.fst := by
    rw [toList, List.map_map]
    rfl
  exact hrows ▸ h.ascending

/-- Storing a text changes none of the texts. -/
theorem resolve_add (h : c.Sound) (row : Nat) {cell : Nat × Handle} (hc : cell ∈ c.cells.toList) :
    (c.add config value row).resolve cell.2 = c.resolve cell.2 := by
  obtain ⟨v, hv, -⟩ := h.good cell hc
  rw [resolve_eq hv]
  exact resolve_eq (by rw [blocks_add]; exact resolves_store_of hv)

theorem get?_add (h : c.Sound) {row : Nat} (hrow : row ≤ lastRow) (r : Nat) :
    (c.add config value row).get? r = if r = row then some value else c.get? r := by
  have hset := toList_setRow h.ascending row (store config value c.blocks).1
  rw [← cells_add] at hset
  ext v
  rw [(h.add hrow).get?_eq_some, toList, List.mem_map, hset]
  simp only [List.mem_append, List.mem_cons, List.mem_filter, decide_eq_true_eq]
  have hself : (c.add config value row).resolve (store config value c.blocks).1 = value :=
    resolve_eq (by rw [blocks_add]; exact resolves_store_self)
  split
  · rename_i hr
    subst hr
    constructor
    · rintro ⟨cell, ⟨-, hlt⟩ | rfl | ⟨-, hlt⟩, heq⟩
      · exact absurd (congrArg Prod.fst heq) (Nat.ne_of_lt hlt)
      · rw [← (Prod.mk.inj heq).2, hself]
      · exact absurd (congrArg Prod.fst heq) (Nat.ne_of_gt hlt)
    · intro hv
      rw [← Option.some.inj hv]
      exact ⟨_, .inr (.inl rfl), by rw [hself]⟩
  · rename_i hr
    rw [h.get?_eq_some, toList, List.mem_map]
    constructor
    · rintro ⟨cell, hcell, heq⟩
      have hcell : cell ∈ c.cells.toList := by
        rcases hcell with ⟨hcell, -⟩ | rfl | ⟨hcell, -⟩
        · exact hcell
        · exact absurd (congrArg Prod.fst heq).symm hr
        · exact hcell
      exact ⟨cell, hcell, by rw [← heq, h.resolve_add row hcell]⟩
    · rintro ⟨cell, hcell, heq⟩
      refine ⟨cell, ?_, by rw [← heq, h.resolve_add row hcell]⟩
      have hne : cell.1 ≠ row := fun hrow => hr ((congrArg Prod.fst heq).symm.trans hrow)
      rcases Nat.lt_or_gt_of_ne hne with hlt | hlt
      · exact .inl ⟨hcell, hlt⟩
      · exact .inr (.inr ⟨hcell, hlt⟩)

theorem get?_insertRows (h : c.Sound) {row count : Nat} (hroom : c.HasRoom row count) (r : Nat) :
    (c.insertRows row count).get? r =
      if r < row then c.get? r else if r < row + count then none else c.get? (r - count) := by
  have hcells := toList_insertRows h.ascending hroom
  ext v
  rw [(h.insertRows hroom).get?_eq_some, toList, List.mem_map, hcells]
  simp only [List.mem_append, List.mem_map, List.mem_filter, decide_eq_true_eq]
  constructor
  · rintro ⟨cell, ⟨hcell, hlt⟩ | ⟨cell, ⟨hcell, hle⟩, rfl⟩, heq⟩
    · obtain ⟨rfl, rfl⟩ := Prod.mk.inj heq
      rw [if_pos hlt, h.get?_eq_some]
      exact List.mem_map_of_mem hcell
    · obtain ⟨rfl, rfl⟩ := Prod.mk.inj heq
      rw [if_neg (by omega), if_neg (by omega), Nat.add_sub_cancel, h.get?_eq_some]
      exact List.mem_map_of_mem hcell
  · intro hv
    split at hv
    · rename_i hlt
      obtain ⟨cell, hcell, heq⟩ := List.mem_map.mp (h.get?_eq_some.mp hv)
      obtain ⟨rfl, rfl⟩ := Prod.mk.inj heq
      exact ⟨cell, .inl ⟨hcell, hlt⟩, rfl⟩
    · split at hv
      · exact absurd hv (by simp)
      · obtain ⟨cell, hcell, heq⟩ := List.mem_map.mp (h.get?_eq_some.mp hv)
        obtain ⟨hrow, rfl⟩ := Prod.mk.inj heq
        refine ⟨(cell.1 + count, cell.2), .inr ⟨cell, ⟨hcell, by omega⟩, rfl⟩, ?_⟩
        exact Prod.ext (show cell.1 + count = r by omega) rfl

theorem get?_removeRows (h : c.Sound) {row count : Nat} (hle : row + count ≤ lastRow) (r : Nat) :
    (c.removeRows row count).get? r = if r < row then c.get? r else c.get? (r + count) := by
  have hcells := toList_removeRows h hle
  ext v
  rw [(h.removeRows hle).get?_eq_some, toList, List.mem_map, hcells]
  simp only [List.mem_append, List.mem_map, List.mem_filter, decide_eq_true_eq]
  constructor
  · rintro ⟨cell, ⟨hcell, hlt⟩ | ⟨cell, ⟨hcell, hle⟩, rfl⟩, heq⟩
    · obtain ⟨rfl, rfl⟩ := Prod.mk.inj heq
      rw [if_pos hlt, h.get?_eq_some]
      exact List.mem_map_of_mem hcell
    · obtain ⟨rfl, rfl⟩ := Prod.mk.inj heq
      have hrow : cell.1 - count + count = cell.1 := by omega
      rw [if_neg (by omega), hrow, h.get?_eq_some]
      exact List.mem_map_of_mem hcell
  · intro hv
    split at hv
    · rename_i hlt
      obtain ⟨cell, hcell, heq⟩ := List.mem_map.mp (h.get?_eq_some.mp hv)
      obtain ⟨rfl, rfl⟩ := Prod.mk.inj heq
      exact ⟨cell, .inl ⟨hcell, hlt⟩, rfl⟩
    · obtain ⟨cell, hcell, heq⟩ := List.mem_map.mp (h.get?_eq_some.mp hv)
      obtain ⟨hrow, rfl⟩ := Prod.mk.inj heq
      refine ⟨(cell.1 - count, cell.2), .inr ⟨cell, ⟨hcell, by omega⟩, rfl⟩, ?_⟩
      exact Prod.ext (show cell.1 - count = r by omega) rfl

/-- Texts put into rows, no row twice, are found there; in the other rows is
what was there before. -/
theorem foldl_add (h : c.Sound) (config : TableConfig) {entries : List (Nat × String)}
    (hnodup : (entries.map Prod.fst).Nodup) (hrows : ∀ entry ∈ entries, entry.1 ≤ lastRow) :
    let c' := entries.foldl (fun c entry => c.add config entry.2 entry.1) c
    c'.Sound ∧ (∀ entry ∈ entries, c'.get? entry.1 = some entry.2) ∧
      ∀ r ∉ entries.map Prod.fst, c'.get? r = c.get? r := by
  induction entries generalizing c with
  | nil => exact ⟨h, by simp, fun _ _ => rfl⟩
  | cons entry entries ih =>
    rw [List.map_cons, List.nodup_cons] at hnodup
    rw [List.forall_mem_cons] at hrows
    have hadd : (c.add config entry.2 entry.1).Sound := h.add hrows.1
    obtain ⟨hsound, hin, hout⟩ := ih hadd hnodup.2 hrows.2
    refine ⟨hsound, ?_, ?_⟩
    · rw [List.forall_mem_cons]
      refine ⟨?_, hin⟩
      rw [List.foldl_cons, hout _ hnodup.1, h.get?_add hrows.1, if_pos rfl]
    · intro r hr
      rw [List.map_cons, List.mem_cons, not_or] at hr
      rw [List.foldl_cons, hout r hr.2, h.get?_add hrows.1, if_neg hr.1]

/-- Texts that are not empty have a handle that is not the empty one. -/
theorem nonEmptyCount_eq (h : c.Sound) :
    c.nonEmptyCount = c.toList.countP fun cell => cell.2 != "" := by
  rw [nonEmptyCount, ← Array.countP_toList, toList, List.countP_map]
  refine List.countP_congr fun cell hcell => ?_
  obtain ⟨v, hv, hempty⟩ := h.good cell hcell
  simp [resolve_eq hv, hempty]

/-- The highest row that has a cell, if there is one. -/
theorem maxRow?_lt (h : c.Sound) {n : Nat} :
    (c.maxRow?.map (· + 1)).getD 0 ≤ n ↔ ∀ cell ∈ c.toList, cell.1 < n := by
  rw [maxRow?, ← Array.getLast?_toList, toList]
  have hasc : (c.cells.toList.map Prod.fst).Pairwise (· < ·) := h.ascending
  generalize c.cells.toList = cells at hasc ⊢
  rcases List.eq_nil_or_concat cells with rfl | ⟨front, last, rfl⟩
  · simp
  · rw [List.concat_eq_append] at hasc ⊢
    rw [List.map_append, List.pairwise_append] at hasc
    have hlast : ∀ cell ∈ front, cell.1 < last.1 := fun cell hcell =>
      hasc.2.2 _ (List.mem_map_of_mem hcell) _ (by simp)
    simp only [List.getLast?_concat, Option.map_some, Option.getD_some, List.forall_mem_map,
      List.forall_mem_append, List.forall_mem_singleton]
    constructor
    · intro hle
      exact ⟨fun cell hcell => Nat.lt_trans (hlast cell hcell) hle, hle⟩
    · exact fun hall => hall.2

end Sound

end Tabular.Column
