/-
Columns hold the texts that were put into them.

* `Column.Resolves` — a handle is good for a text;
* `resolves_store_of`, `resolves_store_self` — storing a text keeps every
  handle good and gives a good one;
* `Column.Holds.add` — a cell below all others goes to the end;
* `Column.toList_foldl_add` — texts put into ascending rows of an empty column
  are its cells.
-/
import Mathlib.Data.List.Forall2
import Tabular.Table.Column
import Tabular.Proofs.Table.Block

namespace Tabular.Column

/-! ### Handles -/

/-- A handle leads to a text, in blocks. -/
def Resolves (blocks : Array Block) : Handle → String → Prop
  | .empty, v => v = ""
  | .stored block offset length, v =>
    ∃ b, blocks[block]? = some b ∧ b.get? offset length = some v

theorem resolve_eq {c : Column} {h : Handle} {v : String} (hv : Resolves c.blocks h v) :
    c.resolve h = v := by
  cases h with
  | empty => exact (hv : v = "").symm
  | stored block offset length =>
    obtain ⟨b, hb, hget⟩ := hv
    rw [resolve, hb, Option.bind_some, hget]
    rfl

variable {config : TableConfig} {blocks : Array Block} {value : String}

theorem room?_eq_some {b : Block} {size offset : Nat} (h : b.room? size = some offset) :
    offset = b.used := by
  rw [Block.room?] at h
  split at h
  · exact (Option.some.inj h).symm
  · simp at h

/-- Storing a text keeps every handle good. -/
theorem resolves_store_of {h : Handle} {v : String} (hv : Resolves blocks h v) :
    Resolves (store config value blocks).2 h v := by
  cases h with
  | empty => exact hv
  | stored block offset length =>
    obtain ⟨b, hb, hget⟩ := hv
    have hlt : block < blocks.size := by
      by_contra hge
      rw [Array.getElem?_eq_none (Nat.le_of_not_lt hge)] at hb
      simp at hb
    rw [store]
    split
    · exact ⟨b, hb, hget⟩
    · dsimp only
      split
      · show ∃ b, (blocks.modify _ _)[block]? = some b ∧ _
        rw [Array.getElem?_modify]
        split
        · rw [hb]
          exact ⟨_, rfl, Block.get?_push_of_get? hget value⟩
        · exact ⟨b, hb, hget⟩
      · refine ⟨b, ?_, hget⟩
        show (blocks.push _)[block]? = some b
        rw [Array.getElem?_push_lt hlt, ← hb, Array.getElem?_eq_getElem hlt]

/-- The handle on a text that was stored is good for it. -/
theorem resolves_store_self :
    Resolves (store config value blocks).2 (store config value blocks).1 value := by
  rw [store]
  split
  · rename_i h
    exact String.isEmpty_iff.mp h
  · dsimp only
    split
    · rename_i offset hroom
      obtain ⟨b, hb, hroom⟩ := Option.bind_eq_some_iff.mp hroom
      obtain rfl := room?_eq_some hroom
      refine ⟨b.push value, ?_, Block.get?_push_self b value⟩
      show (blocks.modify (blocks.size - 1) _)[blocks.size - 1]? = _
      rw [Array.getElem?_modify, if_pos rfl, hb]
      rfl
    · refine ⟨_, Array.getElem?_push_size, ?_⟩
      exact Block.get?_push_self (Block.empty _) value

/-! ### Ascending rows -/

/-- The cells of a column are these, with texts for handles. -/
def Holds (c : Column) (entries : List (Nat × String)) : Prop :=
  List.Forall₂ (fun cell entry => cell.1 = entry.1 ∧ Resolves c.blocks cell.2 entry.2)
    c.cells.toList entries

theorem Holds.toList_eq {c : Column} {entries : List (Nat × String)} (h : c.Holds entries) :
    c.toList = entries := by
  rw [toList]
  unfold Holds at h
  generalize c.cells.toList = cells at h
  induction h with
  | nil => rfl
  | cons hcell _ ih =>
    rw [List.map_cons, ih]
    dsimp only
    rw [hcell.1, resolve_eq hcell.2]

theorem Holds.map_fst {c : Column} {entries : List (Nat × String)} (h : c.Holds entries) :
    c.cells.toList.map Prod.fst = entries.map Prod.fst := by
  unfold Holds at h
  generalize c.cells.toList = cells at h
  induction h with
  | nil => rfl
  | cons hcell _ ih => rw [List.map_cons, List.map_cons, ih, hcell.1]

/-- Below the last row of ascending ones there is room for a cell. -/
theorem setRow_of_lt {cells : Array (Nat × Handle)} {row : Nat} {handle : Handle}
    (hasc : (cells.toList.map Prod.fst).Pairwise (· < ·))
    (hlt : ∀ cell ∈ cells.toList, cell.1 < row) :
    setRow cells row handle = cells.push (row, handle) := by
  have hrow : ∀ i, (hi : i < cells.size) → rowAt cells i = cells[i].1 := by
    intro i hi
    rw [rowAt, Array.getElem?_eq_getElem hi]
    rfl
  have hascends : AscendsOn (rowAt cells) 0 cells.size := by
    intro i j _ hij hj
    rw [Nat.zero_add] at hj
    rw [hrow i (Nat.lt_trans hij hj), hrow j hj]
    have := List.pairwise_iff_getElem.mp hasc i j (by simpa using Nat.lt_trans hij hj)
      (by simpa using hj) hij
    simpa using this
  -- The place that is found cannot be that of a cell, all of which are above.
  have hplace : placeOf cells row = cells.size := by
    by_contra hne
    have hle : placeOf cells row ≤ 0 + cells.size := bisect_le
    have hplt : placeOf cells row < 0 + cells.size := by omega
    have hge : row ≤ rowAt cells (placeOf cells row) :=
      le_of_bisect_le hascends (Nat.le_refl _) hplt
    rw [Nat.zero_add] at hplt
    rw [hrow _ hplt] at hge
    have := hlt _ (Array.getElem_mem_toList hplt)
    omega
  rw [setRow, hplace, Array.getElem?_eq_none (Nat.le_refl _), if_neg (by simp),
    Array.insertIdxIfInBounds, dif_pos (Nat.le_refl _)]
  exact Array.insertIdx_size_self

/-- A cell below all others goes to the end. -/
theorem Holds.add {c : Column} {entries : List (Nat × String)} {row : Nat} (h : c.Holds entries)
    (hasc : (entries.map Prod.fst).Pairwise (· < ·)) (hlt : ∀ entry ∈ entries, entry.1 < row) :
    (c.add config value row).Holds (entries ++ [(row, value)]) := by
  have hrows := h.map_fst
  obtain ⟨blocks, cells⟩ := c
  have hbelow : ∀ cell ∈ cells.toList, cell.1 < row := by
    intro cell hcell
    have hmem : cell.1 ∈ entries.map Prod.fst := hrows ▸ List.mem_map_of_mem hcell
    obtain ⟨entry, hentry, heq⟩ := List.mem_map.mp hmem
    exact heq ▸ hlt entry hentry
  have hset := @setRow_of_lt cells row (store config value blocks).1
    (show (cells.toList.map Prod.fst).Pairwise (· < ·) from hrows ▸ hasc) hbelow
  show List.Forall₂ _ (setRow cells row (store config value blocks).1).toList _
  rw [hset, Array.toList_push]
  refine List.rel_append ?_ (.cons ⟨rfl, resolves_store_self⟩ .nil)
  exact h.imp fun _ _ hcell => ⟨hcell.1, resolves_store_of hcell.2⟩

/-- Texts put into ascending rows of an empty column are its cells. -/
theorem toList_foldl_add {entries : List (Nat × String)}
    (hasc : (entries.map Prod.fst).Pairwise (· < ·)) :
    (entries.foldl (fun c entry => c.add config entry.2 entry.1) empty).toList = entries := by
  -- Stated for a column that already holds some cells, which the induction adds to.
  suffices h : ∀ (done : List (Nat × String)) (c : Column), c.Holds done →
      ((done ++ entries).map Prod.fst).Pairwise (· < ·) →
      (entries.foldl (fun c entry => c.add config entry.2 entry.1) c).Holds (done ++ entries) by
    exact (h [] empty .nil hasc).toList_eq
  clear hasc
  induction entries with
  | nil =>
    intro done c hc _
    rw [List.append_nil]
    exact hc
  | cons entry entries ih =>
    intro done c hc hasc
    have hsplit : done ++ entry :: entries = (done ++ [entry]) ++ entries := by simp
    have hdone : (done.map Prod.fst).Pairwise (· < ·) ∧ ∀ e ∈ done, e.1 < entry.1 := by
      rw [List.map_append, List.pairwise_append] at hasc
      refine ⟨hasc.1, fun e he => ?_⟩
      exact hasc.2.2 e.1 (List.mem_map_of_mem he) entry.1 (by simp)
    rw [hsplit] at hasc ⊢
    exact ih _ _ (hc.add hdone.1 hdone.2) hasc

end Tabular.Column
