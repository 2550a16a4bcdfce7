/-
What a table holds after texts have been put into it.

* `Table.addAll_eq` — texts that are refused leave no trace but their number;
* `Table.columnAt_putAll` — a column depends only on what goes into it, in the
  order in which it goes there;
* `Table.putAll_congr` — so the order between columns does not matter;
* `Table.append_addAll` — texts can be collected in a table of their own first.
-/
import Tabular.Table.Basic
import Tabular.Proofs.Table.Column

namespace Tabular.Table

/-- Puts texts into cells one after another, whether or not the table admits
them. -/
def putAll (t : Table) (cells : List (Nat × Nat × String)) : Table :=
  cells.foldl (fun t cell => t.add cell.2.2 cell.1 cell.2.1) t

/-- The cells of one column. -/
def inColumn (j : Nat) (cells : List (Nat × Nat × String)) : List (Nat × Nat × String) :=
  cells.filter fun cell => cell.2.1 == j

/-- A column, empty if there is none. -/
def columnAt (t : Table) (j : Nat) : Column := (t.columns[j]?).getD .empty

/-- A cell some rows further down. -/
def shift (offset : Nat) (cell : Nat × Nat × String) : Nat × Nat × String :=
  (cell.1 + offset, cell.2.1, cell.2.2)

/-- The same as rows are counted, with the first after the last that there can
be. -/
def lower (offset : Nat) (cell : Nat × Nat × String) : Nat × Nat × String :=
  (rowBelow cell.1 offset, cell.2.1, cell.2.2)

theorem lower_eq_shift {offset : Nat} {cell : Nat × Nat × String}
    (h : cell.1 + offset ≤ lastRow) : lower offset cell = shift offset cell := by
  rw [lower, shift, rowBelow_of_le h]

variable {t : Table} {cells : List (Nat × Nat × String)}

@[simp] theorem config_add (value : String) (row column : Nat) (t : Table) :
    (t.add value row column).config = t.config := rfl

@[simp] theorem config_putAll (t : Table) (cells : List (Nat × Nat × String)) :
    (t.putAll cells).config = t.config := by
  induction cells generalizing t with
  | nil => rfl
  | cons cell cells ih => rw [putAll, List.foldl_cons, ← putAll, ih, config_add]

/-- Texts that are refused leave no trace but their number. -/
theorem addAll_eq (t : Table) (cells : List (Nat × Nat × String)) :
    t.addAll cells =
      (t.putAll (cells.filter fun cell => t.config.admits cell.2.2),
        cells.countP fun cell => !t.config.admits cell.2.2) := by
  -- Stated for any table of that configuration, and any number refused before.
  suffices h : ∀ (t' : Table) (refused : Nat), t'.config = t.config →
      cells.foldl (fun s cell =>
          if s.1.config.admits cell.2.2 then (s.1.add cell.2.2 cell.1 cell.2.1, s.2)
          else (s.1, s.2 + 1)) (t', refused) =
        (t'.putAll (cells.filter fun cell => t.config.admits cell.2.2),
          refused + cells.countP fun cell => !t.config.admits cell.2.2) by
    exact (h t 0 rfl).trans (by rw [Nat.zero_add])
  induction cells with
  | nil =>
    intro t' refused _
    rfl
  | cons cell cells ih =>
    intro t' refused hconfig
    rw [List.foldl_cons]
    dsimp only
    rw [hconfig]
    by_cases hadmits : t.config.admits cell.2.2
    · rw [if_pos hadmits, ih (t'.add _ _ _) refused hconfig, List.filter_cons, if_pos hadmits,
        putAll, putAll, List.foldl_cons, List.countP_cons_of_neg (by simp [hadmits])]
    · rw [if_neg hadmits, ih _ _ hconfig, List.filter_cons, if_neg hadmits,
        List.countP_cons_of_pos (by simp [hadmits]), Nat.add_assoc, Nat.add_comm 1]

/-! ### Column by column -/

theorem size_add (value : String) (row column : Nat) (t : Table) :
    (t.add value row column).columns.size = max t.columns.size (column + 1) := by
  show (Array.modify _ column _).size = _
  rw [Array.size_modify, Array.size_append, Array.size_replicate]
  omega

/-- A column after a text has been put into a cell. -/
theorem columnAt_add (value : String) (row column : Nat) (t : Table) (j : Nat) :
    (t.add value row column).columnAt j =
      if column = j then (t.columnAt j).add t.config value row else t.columnAt j := by
  have hget : ((t.columns ++ Array.replicate (column + 1 - t.columns.size) Column.empty)[j]?).getD
      Column.empty = t.columnAt j := by
    rw [columnAt, Array.getElem?_append]
    split
    · rfl
    · rename_i hj
      rw [Array.getElem?_replicate, Array.getElem?_eq_none (Nat.le_of_not_lt hj)]
      split <;> rfl
  have hlt : column < (t.columns ++ Array.replicate (column + 1 - t.columns.size)
      Column.empty).size := by
    rw [Array.size_append, Array.size_replicate]
    omega
  show ((Array.modify _ column _)[j]?).getD Column.empty = _
  rw [Array.getElem?_modify]
  split
  · rename_i hj
    subst hj
    rw [← hget, Array.getElem?_eq_getElem hlt]
    rfl
  · exact hget

/-- A column depends only on what goes into it. -/
theorem columnAt_putAll (t : Table) (cells : List (Nat × Nat × String)) (j : Nat) :
    (t.putAll cells).columnAt j =
      (inColumn j cells).foldl (fun c cell => c.add t.config cell.2.2 cell.1) (t.columnAt j) := by
  induction cells generalizing t with
  | nil => rfl
  | cons cell cells ih =>
    rw [putAll, List.foldl_cons, ← putAll, ih, columnAt_add, config_add, inColumn, inColumn,
      List.filter_cons]
    by_cases hc : cell.2.1 = j
    · rw [if_pos hc, if_pos (beq_iff_eq.mpr hc), List.foldl_cons]
    · rw [if_neg hc, if_neg (mt beq_iff_eq.mp hc)]

/-- There are as many columns as the last cell needs. -/
theorem lt_size_putAll (t : Table) (cells : List (Nat × Nat × String)) (j : Nat) :
    j < (t.putAll cells).columns.size ↔
      j < t.columns.size ∨ ∃ i, j ≤ i ∧ inColumn i cells ≠ [] := by
  induction cells generalizing t with
  | nil => simp [putAll, inColumn]
  | cons cell cells ih =>
    have hcell : ∀ i, inColumn i (cell :: cells) ≠ [] ↔
        cell.2.1 = i ∨ inColumn i cells ≠ [] := by
      intro i
      rw [inColumn, List.filter_cons, ← inColumn]
      by_cases hc : cell.2.1 = i
      · simp [hc]
      · simp [hc]
    rw [putAll, List.foldl_cons, ← putAll, ih, size_add]
    simp only [hcell]
    constructor
    · rintro (hj | ⟨i, hi, hne⟩)
      · rcases Nat.lt_or_ge j t.columns.size with hj' | hj'
        · exact .inl hj'
        · exact .inr ⟨cell.2.1, by omega, .inl rfl⟩
      · exact .inr ⟨i, hi, .inr hne⟩
    · rintro (hj | ⟨i, hi, rfl | hne⟩)
      · exact .inl (by omega)
      · exact .inl (by omega)
      · exact .inr ⟨i, hi, hne⟩

theorem ext_columns {t t' : Table} (hconfig : t.config = t'.config)
    (hsize : ∀ j, j < t.columns.size ↔ j < t'.columns.size)
    (h : ∀ j, t.columnAt j = t'.columnAt j) : t = t' := by
  obtain ⟨columns, config⟩ := t
  obtain ⟨columns', config'⟩ := t'
  obtain rfl : config = config' := hconfig
  congr
  refine Array.ext_getElem? fun j => ?_
  have hj : (columns[j]?).getD Column.empty = (columns'[j]?).getD Column.empty := h j
  -- `columnAt` tells columns apart only below the size, which is the same.
  by_cases hlt : j < columns.size
  · have hlt' : j < columns'.size := (hsize j).mp hlt
    rw [Array.getElem?_eq_getElem hlt, Array.getElem?_eq_getElem hlt'] at hj ⊢
    exact congrArg some hj
  · have hlt' : ¬ j < columns'.size := mt (hsize j).mpr hlt
    rw [Array.getElem?_eq_none (Nat.le_of_not_lt hlt),
      Array.getElem?_eq_none (Nat.le_of_not_lt hlt')]

/-- The order between columns does not matter. -/
theorem putAll_congr {cells' : List (Nat × Nat × String)}
    (h : ∀ j, inColumn j cells = inColumn j cells') (t : Table) :
    t.putAll cells = t.putAll cells' := by
  refine ext_columns ?_ (fun j => ?_) (fun j => ?_)
  · rw [config_putAll, config_putAll]
  · rw [lt_size_putAll, lt_size_putAll]
    simp only [h]
  · rw [columnAt_putAll, columnAt_putAll, h]

/-! ### Collecting texts first -/

/-- In one column texts come from top to bottom, each row once. -/
def Ascending (cells : List (Nat × Nat × String)) : Prop :=
  ∀ j, ((inColumn j cells).map Prod.fst).Pairwise (· < ·)

theorem Ascending.filter (h : Ascending cells) (p : Nat × Nat × String → Bool) :
    Ascending (cells.filter p) := by
  intro j
  have hsub : (inColumn j (cells.filter p)).Sublist (inColumn j cells) :=
    List.filter_sublist.filter _
  exact (h j).sublist (hsub.map Prod.fst)

/-- Cells that are moved up or down stay in their column. -/
theorem inColumn_map_rows {move : Nat × Nat × String → Nat × Nat × String}
    (h : ∀ cell, (move cell).2.1 = cell.2.1) (j : Nat) (cells : List (Nat × Nat × String)) :
    inColumn j (cells.map move) = (inColumn j cells).map move := by
  rw [inColumn, inColumn, List.filter_map]
  refine congrArg _ (List.filter_congr fun cell _ => ?_)
  rw [Function.comp_apply, h]

theorem inColumn_map (j k : Nat) (cells : List (Nat × String)) :
    inColumn j (cells.map fun cell => (cell.1, k, cell.2)) =
      if k = j then cells.map fun cell => (cell.1, j, cell.2) else [] := by
  rw [inColumn, List.filter_map]
  split
  · rename_i hk
    subst hk
    rw [List.filter_eq_self.mpr (by simp)]
  · rename_i hk
    rw [List.filter_eq_nil_iff.mpr (by simpa using fun _ _ _ => hk), List.map_nil]

/-- The cells of a table in one column are those of the column. -/
theorem inColumn_cells (t : Table) (j : Nat) :
    inColumn j t.cells = (t.columnAt j).toList.map fun cell => (cell.1, j, cell.2) := by
  -- Stated for columns that are numbered from `k` on.
  suffices h : ∀ (columns : List Column) (k : Nat),
      inColumn j ((columns.zipIdx k).flatMap fun c =>
        c.1.toList.map fun cell => (cell.1, c.2, cell.2)) =
      if k ≤ j then ((columns[j - k]?).getD Column.empty).toList.map fun cell => (cell.1, j, cell.2)
      else [] by
    refine (h t.columns.toList 0).trans ?_
    rw [if_pos (Nat.zero_le j), Nat.sub_zero, Array.getElem?_toList]
    rfl
  intro columns
  induction columns with
  | nil =>
    intro k
    split <;> rfl
  | cons c columns ih =>
    intro k
    rw [List.zipIdx_cons, List.flatMap_cons, inColumn, List.filter_append, ← inColumn, ← inColumn,
      ih (k + 1), inColumn_map]
    rcases Nat.lt_trichotomy k j with hk | rfl | hk
    · have hsub : j - k = j - (k + 1) + 1 := by omega
      rw [if_neg (Nat.ne_of_lt hk), if_pos (Nat.succ_le_of_lt hk), if_pos (Nat.le_of_lt hk), hsub,
        List.getElem?_cons_succ, List.nil_append]
    · rw [if_pos rfl, if_neg (Nat.not_succ_le_self k), if_pos (Nat.le_refl k), Nat.sub_self,
        List.append_nil]
      rfl
    · rw [if_neg (Nat.ne_of_gt hk), if_neg (by omega), if_neg (by omega), List.append_nil]

/-- An empty table holds, in each column, what was put there. -/
theorem inColumn_cells_putAll (h : Ascending cells) (config : TableConfig) (j : Nat) :
    inColumn j ((empty config).putAll cells).cells = inColumn j cells := by
  have hfold : ∀ c : Column,
      (inColumn j cells).foldl (fun c cell => c.add config cell.2.2 cell.1) c =
      ((inColumn j cells).map fun cell => (cell.1, cell.2.2)).foldl
        (fun c cell => c.add config cell.2 cell.1) c := by
    intro c
    rw [List.foldl_map]
  have hasc : (((inColumn j cells).map fun cell => (cell.1, cell.2.2)).map Prod.fst).Pairwise
      (· < ·) := by
    rw [List.map_map]
    exact h j
  rw [inColumn_cells, columnAt_putAll]
  show ((inColumn j cells).foldl (fun c cell => c.add config cell.2.2 cell.1)
    Column.empty).toList.map _ = _
  rw [hfold, Column.toList_foldl_add hasc, List.map_map]
  refine (List.map_congr_left fun cell hcell => ?_).trans (List.map_id _)
  have hj : cell.2.1 = j := beq_iff_eq.mp (List.mem_filter.mp hcell).2
  rw [← hj]
  rfl

/-- Texts can be collected in a table of their own, and then appended, if that
moves none of them past the last row that there can be. -/
theorem append_addAll (h : Ascending cells) (t : Table) {offset : Nat}
    (hroom : ∀ cell ∈ cells, cell.1 + offset ≤ lastRow) :
    let part := (empty t.config).addAll cells
    let whole := t.addAll (cells.map (shift offset))
    t.append part.1 offset = (whole.1, 0) ∧ part.2 = whole.2 := by
  intro part whole
  have hpart : part =
      ((empty t.config).putAll (cells.filter fun cell => t.config.admits cell.2.2),
        cells.countP fun cell => !t.config.admits cell.2.2) := addAll_eq (empty t.config) cells
  have hwhole : whole = _ := addAll_eq t (cells.map (shift offset))
  have hadmitted : (cells.map (shift offset)).filter (fun cell => t.config.admits cell.2.2) =
      (cells.filter fun cell => t.config.admits cell.2.2).map (shift offset) := by
    rw [List.filter_map]
    rfl
  have hcells := inColumn_cells_putAll (h.filter fun cell => t.config.admits cell.2.2) t.config
  have hmem : ∀ cell ∈ part.1.cells, cell ∈ cells.filter fun cell => t.config.admits cell.2.2 := by
    intro cell hcell
    rw [hpart] at hcell
    have : cell ∈ inColumn cell.2.1 _ := List.mem_filter.mpr ⟨hcell, beq_self_eq_true _⟩
    rw [hcells] at this
    exact (List.mem_filter.mp this).1
  -- All texts of a table were admitted once, and so they are again.
  have hall : ∀ cell ∈ part.1.cells.map (shift offset), t.config.admits cell.2.2 := by
    intro cell hcell
    obtain ⟨cell', hcell', rfl⟩ := List.mem_map.mp hcell
    exact (List.mem_filter.mp (hmem cell' hcell')).2
  have hlower : part.1.cells.map (lower offset) = part.1.cells.map (shift offset) :=
    List.map_congr_left fun cell hcell =>
      lower_eq_shift (hroom cell (List.mem_filter.mp (hmem cell hcell)).1)
  rw [hwhole, hadmitted]
  refine ⟨?_, ?_⟩
  · show t.addAll (part.1.cells.map (lower offset)) = _
    rw [hlower, addAll_eq, List.filter_eq_self.mpr hall, List.countP_eq_zero.mpr (by simpa using hall),
      hpart]
    -- The texts come column by column, which makes no difference.
    refine congrArg (·, 0) (putAll_congr (fun j => ?_) t)
    have hshift : ∀ cell, (shift offset cell).2.1 = cell.2.1 := fun _ => rfl
    rw [inColumn_map_rows hshift, inColumn_map_rows hshift, hcells]
  · rw [hpart, List.countP_map]
    rfl

end Tabular.Table
