/-
The parts in which a text is loaded.

* `Bytewise.Finds` — what a split finds in bytes does not depend on what came
  before them;
* `Part.load_eq` — what a worker makes of a chunk;
* `Merged.append_load` — a chunk that is loaded into a table of its own and put
  below the others comes to the same as a chunk loaded in its place;
* `Merged.foldl_append_load` — and so do all the chunks of a text;
* `Pool.Orderly` — what workers have to be relied on for;
* `Pool.Orderly.foldl_progress` — what they have accounted for, in whatever order;
* `Pool.orderly_of_finish` — workers that can be relied on.
-/
import Mathlib.Data.List.Sort
import Tabular.Proofs.Read.Grammar
import Tabular.Proofs.Read.Split
import Tabular.Proofs.Table.Add
import Tabular.Proofs.Table.Chunks

namespace Tabular

namespace Table

theorem addAll_append (t : Table) (cells cells' : List (Nat × Nat × String)) :
    t.addAll (cells ++ cells') =
      (((t.addAll cells).1.addAll cells').1,
        (t.addAll cells).2 + ((t.addAll cells).1.addAll cells').2) := by
  have hconfig : (t.addAll cells).1.config = t.config := by
    rw [addAll_eq]
    exact config_putAll _ _
  rw [addAll_eq _ cells', hconfig, addAll_eq, addAll_eq, List.filter_append, List.countP_append]
  dsimp only
  rw [putAll, List.foldl_append]
  rfl

@[simp] theorem config_addAll (t : Table) (cells : List (Nat × Nat × String)) :
    (t.addAll cells).1.config = t.config := by
  rw [addAll_eq, config_putAll]

/-- Cells are stored where they were handed over, if there are such rows. -/
theorem store_zero {t : Table} {handed : List Handed} {cells : List (Nat × Nat × String)}
    (h : handed.map Handed.entry = cells) (hrows : ∀ cell ∈ cells, cell.1 ≤ lastRow) :
    t.store 0 handed = t.addAll cells := by
  have hlower : handed.map (fun h => (rowBelow h.row 0, h.column, h.cell.text)) =
      (handed.map Handed.entry).map (lower 0) := by
    rw [List.map_map]
    rfl
  have hself : ∀ cell ∈ cells, lower 0 cell = cell := fun cell hcell =>
    lower_eq_shift (hrows cell hcell)
  rw [store, hlower, h, List.map_congr_left hself, List.map_id']

theorem shift_zero (cell : Nat × Nat × String) : shift 0 cell = cell := rfl

theorem shift_shift (a b : Nat) (cell : Nat × Nat × String) :
    shift a (shift b cell) = shift (b + a) cell := by
  simp only [shift, Nat.add_assoc]

/-- Cells as a reader comes to them: row by row, from left to right. -/
def Follows (a b : Nat × Nat × String) : Prop := a.1 < b.1 ∨ (a.1 = b.1 ∧ a.2.1 < b.2.1)

theorem Ascending.of_follows {cells : List (Nat × Nat × String)} (h : cells.Pairwise Follows) :
    Ascending cells := by
  intro j
  rw [List.pairwise_map]
  refine (h.filter _).imp_of_mem ?_
  intro a b ha hb hab
  have ha : a.2.1 = j := beq_iff_eq.mp (List.mem_filter.mp ha).2
  have hb : b.2.1 = j := beq_iff_eq.mp (List.mem_filter.mp hb).2
  rcases hab with hlt | ⟨-, hlt⟩
  · exact hlt
  · omega

theorem Follows.shift {a b : Nat × Nat × String} (h : Follows a b) (offset : Nat) :
    Follows (Table.shift offset a) (Table.shift offset b) := by
  rcases h with hlt | ⟨heq, hlt⟩
  · exact .inl (Nat.add_lt_add_right hlt offset)
  · exact .inr ⟨congrArg (· + offset) heq, hlt⟩

end Table

/-! ### What is found in bytes -/

namespace Bytewise

open Table (Follows shift)

variable {d : Ends} {e : Encoding}

/-- What a split finds in bytes that begin in that column: so many rows, and
these cells, with rows counted from zero.  It does not depend on what came
before the bytes: not on the row, nor on the position, nor on the cells already
handed over, nor on the account. -/
structure Finds (d : Ends) (e : Encoding) (bytes : List UInt8) (column rows : Nat)
    (found : List (Nat × Nat × String)) : Prop where
  follows : found.Pairwise Follows
  /-- The cells of the first row stand in that column, or after it. -/
  after : ∀ cell ∈ found, 0 < cell.1 ∨ column ≤ cell.2.1
  lt_rows : ∀ cell ∈ found, cell.1 < rows
  /-- Each row takes a byte, the first one perhaps before these. -/
  rows_le : rows ≤ bytes.length + column
  split_eq : ∀ row position handed t,
    let r := split d e .always ⟨row, column, position⟩ .handing handed t bytes
    r.rows = row + rows ∧ r.bytesRead = position + bytes.length ∧
      r.handed.map Handed.entry = (found.map (shift row)).reverse ++ handed.map Handed.entry

namespace Finds

variable {column rows : Nat} {found : List (Nat × Nat × String)} {run rest : List UInt8} {b : UInt8}

theorem nil (d : Ends) (e : Encoding) : Finds d e [] 0 0 [] := by
  refine ⟨.nil, List.forall_mem_nil _, List.forall_mem_nil _, Nat.zero_le _, ?_⟩
  intro row position handed t
  rw [split_nil]
  exact ⟨rfl, rfl, rfl⟩

/-- The last cell. -/
theorem last (hrest : ∀ x ∈ rest, d.isContent x) (hne : ¬ (rest = [] ∧ column = 0)) :
    Finds d e rest column 1 [(0, column, (cellAt e 0 rest).text)] := by
  refine ⟨List.pairwise_singleton .., ?_, ?_, ?_, ?_⟩
  · intro cell hcell
    rw [List.mem_singleton.mp hcell]
    exact .inr (Nat.le_refl column)
  · intro cell hcell
    rw [List.mem_singleton.mp hcell]
    exact Nat.zero_lt_one
  · rcases Nat.eq_zero_or_pos column with hcolumn | hcolumn
    · exact Nat.le_add_right_of_le (List.length_pos_iff.mpr fun hnil => hne ⟨hnil, hcolumn⟩)
    · exact Nat.le_add_left_of_le hcolumn
  · intro row position handed t
    rw [split_end_always hrest hne]
    refine ⟨rfl, rfl, ?_⟩
    show _ :: _ = [_] ++ _
    rw [shift, Nat.zero_add]
    rfl

theorem length_eq (run rest : List UInt8) (b : UInt8) (position : Nat) :
    position + run.length + 1 + rest.length = position + (run ++ b :: rest).length := by
  rw [List.length_append, List.length_cons]
  omega

/-- A separator goes on with the row. -/
theorem separator (h : Finds d e rest (column + 1) rows found) (hrun : ∀ x ∈ run, d.isContent x)
    (hb : d.isContent b = false) (hs : b = d.separator) (hrows : 0 < rows) :
    Finds d e (run ++ b :: rest) column rows
      ((0, column, (cellAt e 0 (d.cellBytes run b)).text) :: found) := by
  refine ⟨List.pairwise_cons.mpr ⟨?_, h.follows⟩, ?_, ?_, ?_, ?_⟩
  · intro cell hcell
    rcases h.after cell hcell with hrow | hcolumn
    · exact .inl hrow
    · rcases Nat.eq_zero_or_pos cell.1 with hrow | hrow
      · exact .inr ⟨hrow.symm, hcolumn⟩
      · exact .inl hrow
  · intro cell hcell
    rcases List.mem_cons.mp hcell with rfl | hcell
    · exact .inr (Nat.le_refl column)
    · exact (h.after cell hcell).imp id Nat.le_of_succ_le
  · intro cell hcell
    rcases List.mem_cons.mp hcell with rfl | hcell
    · exact hrows
    · exact h.lt_rows cell hcell
  · have := h.rows_le
    have := length_eq run rest b 0
    omega
  · intro row position handed t
    rw [split_byte_always hrun hb]
    dsimp only
    rw [if_pos hs]
    obtain ⟨hrows, hread, hhanded⟩ := h.split_eq row (position + run.length + 1)
      (⟨row, column, cellAt e position (d.cellBytes run b)⟩ :: handed) t
    refine ⟨hrows, hread.trans (length_eq ..), hhanded.trans ?_⟩
    rw [List.map_cons, List.map_cons, List.reverse_cons, List.append_assoc, List.singleton_append,
      shift, Nat.zero_add]
    rfl

/-- A line end goes on with the next row. -/
theorem lineEnd (h : Finds d e rest 0 rows found) (hrun : ∀ x ∈ run, d.isContent x)
    (hb : d.isContent b = false) (hs : b ≠ d.separator) :
    Finds d e (run ++ b :: rest) column (rows + 1)
      ((0, column, (cellAt e 0 (d.cellBytes run b)).text) :: found.map (shift 1)) := by
  refine ⟨List.pairwise_cons.mpr ⟨?_, ?_⟩, ?_, ?_, ?_, ?_⟩
  · intro cell hcell
    obtain ⟨cell, -, rfl⟩ := List.mem_map.mp hcell
    exact .inl (Nat.succ_pos _)
  · rw [List.pairwise_map]
    exact h.follows.imp fun h => h.shift 1
  · intro cell hcell
    rcases List.mem_cons.mp hcell with rfl | hcell
    · exact .inr (Nat.le_refl column)
    · obtain ⟨cell, -, rfl⟩ := List.mem_map.mp hcell
      exact .inl (Nat.succ_pos _)
  · intro cell hcell
    rcases List.mem_cons.mp hcell with rfl | hcell
    · exact Nat.succ_pos rows
    · obtain ⟨cell, hfound, rfl⟩ := List.mem_map.mp hcell
      exact Nat.succ_lt_succ (h.lt_rows cell hfound)
  · have := h.rows_le
    have := length_eq run rest b 0
    omega
  · intro row position handed t
    rw [split_byte_always hrun hb]
    dsimp only
    rw [if_neg hs]
    obtain ⟨hrows, hread, hhanded⟩ := h.split_eq (row + 1) (position + run.length + 1)
      (⟨row, column, cellAt e position (d.cellBytes run b)⟩ :: handed)
      (t.account (position + run.length + 1))
    have hshift : found.map (shift (row + 1)) = (found.map (shift 1)).map (shift row) := by
      rw [List.map_map]
      refine List.map_congr_left fun cell _ => ?_
      rw [Function.comp_apply, Table.shift_shift, Nat.add_comm]
    refine ⟨hrows.trans (by omega), hread.trans (length_eq ..), hhanded.trans ?_⟩
    rw [List.map_cons, List.map_cons, List.reverse_cons, List.append_assoc, List.singleton_append,
      shift, Nat.zero_add, hshift]
    rfl

/-- The cells that are found where nothing came before, in the order in which
they are handed over. -/
theorem reverse_handed {bytes : List UInt8} (h : Finds d e bytes 0 rows found) (position : Nat)
    (t : Tally) :
    ((split d e .always ⟨0, 0, position⟩ .handing [] t bytes).handed.map Handed.entry).reverse =
      found := by
  obtain ⟨-, -, hhanded⟩ := h.split_eq 0 position [] t
  rw [hhanded, List.map_nil, List.append_nil, List.reverse_reverse,
    List.map_congr_left fun cell _ => Table.shift_zero cell, List.map_id']

theorem store_eq {bytes : List UInt8} (h : Finds d e bytes 0 rows found)
    (hsize : bytes.length ≤ lastRow) (table : Table) (position : Nat) (t : Tally) :
    table.store 0 (split d e .always ⟨0, 0, position⟩ .handing [] t bytes).handed.reverse =
      table.addAll found := by
  refine Table.store_zero (by rw [List.map_reverse, h.reverse_handed]) fun cell hcell => ?_
  have hrow := h.lt_rows cell hcell
  have hrows := h.rows_le
  omega

end Finds

/-- A row that has begun is one of those found. -/
theorem exists_finds (d : Ends) (e : Encoding) (bytes : List UInt8) (column : Nat) :
    ∃ rows found, Finds d e bytes column rows found ∧ (0 < column → 0 < rows) := by
  induction bytes using induction_cells d generalizing column with
  | last rest hrest =>
    by_cases hnil : rest = [] ∧ column = 0
    · obtain ⟨rfl, rfl⟩ := hnil
      exact ⟨0, [], .nil d e, id⟩
    · exact ⟨1, _, .last hrest hnil, fun _ => Nat.zero_lt_one⟩
  | step run b rest hrun hb ih =>
    by_cases hs : b = d.separator
    · obtain ⟨rows, found, h, hrows⟩ := ih (column + 1)
      have hrows := hrows (Nat.succ_pos column)
      exact ⟨rows, _, h.separator hrun hb hs hrows, fun _ => hrows⟩
    · obtain ⟨rows, found, h, -⟩ := ih 0
      exact ⟨rows + 1, _, h.lineEnd hrun hb hs, fun _ => Nat.succ_pos rows⟩

/-- Cells already handed over stay where they are. -/
theorem split_handed (row position : Nat) (handed : List Handed) (t : Tally)
    (bytes : List UInt8) :
    let r := split d e .always ⟨row, 0, position⟩ .handing [] t bytes
    let r' := split d e .always ⟨row, 0, position⟩ .handing handed t bytes
    r'.rows = r.rows ∧ r'.bytesRead = r.bytesRead ∧
      r'.handed.map Handed.entry = r.handed.map Handed.entry ++ handed.map Handed.entry := by
  intro r r'
  obtain ⟨rows, found, h, -⟩ := exists_finds d e bytes 0
  obtain ⟨hrows, hread, hhanded⟩ := h.split_eq row position [] t
  obtain ⟨hrows', hread', hhanded'⟩ := h.split_eq row position handed t
  refine ⟨hrows'.trans hrows.symm, hread'.trans hread.symm, hhanded'.trans ?_⟩
  rw [hhanded, List.map_nil, List.append_nil]

end Bytewise

/-! ### Chunks -/

variable {d : Bytewise.Ends} {e : Encoding} {chunk : List UInt8}

namespace Part

/-- A chunk is split as if nothing came before it. -/
theorem run_chunk (d : Bytewise.Ends) (e : Encoding) (chunk : List UInt8) :
    Bytewise.run d e .always 0 chunk =
      Bytewise.split d e .always ⟨0, 0, 0⟩ .handing [] .zero chunk := by
  rw [Bytewise.run, Nat.zero_min, List.drop_zero]

theorem rows_load (d : Bytewise.Ends) (e : Encoding) (config : TableConfig) (chunk : List UInt8) :
    (load d e config chunk).rows =
      (Bytewise.split d e .always ⟨0, 0, 0⟩ .handing [] .zero chunk).rows :=
  congrArg Bytewise.Result.rows (run_chunk d e chunk)

/-- All bytes of a chunk are accounted for. -/
theorem progress_load (d : Bytewise.Ends) (e : Encoding) (config : TableConfig)
    (chunk : List UInt8) : (load d e config chunk).progress = chunk.length := by
  obtain ⟨rows, found, h, -⟩ := Bytewise.exists_finds d e chunk 0
  obtain ⟨-, hread, -⟩ := h.split_eq 0 0 [] .zero
  show (Bytewise.run d e .always 0 chunk).progress = _
  rw [run_chunk, Bytewise.split_progress chunk Bytewise.Tally.covers_zero, hread, Nat.zero_add]

/-- What a worker makes of a chunk. -/
theorem load_eq {rows : Nat} {found : List (Nat × Nat × String)}
    (h : Bytewise.Finds d e chunk 0 rows found) (hsize : chunk.length ≤ lastRow)
    (config : TableConfig) :
    let s := (Table.empty config).addAll found
    load d e config chunk = ⟨s.1, rows, chunk.length, s.2, chunk.length⟩ := by
  intro s
  obtain ⟨hrows, hread, -⟩ := h.split_eq 0 0 [] .zero
  have hstore : (Table.empty config).store 0 (Bytewise.run d e .always 0 chunk).handed.reverse =
      s := by rw [run_chunk, h.store_eq hsize]
  have hprogress := progress_load d e config chunk
  rw [load, hstore] at hprogress ⊢
  rw [run_chunk] at hprogress ⊢
  rw [hrows, hread, Nat.zero_add, Nat.zero_add]
  exact congrArg _ hprogress

end Part

namespace Merged

/-- A chunk loaded into a table of its own and put below the others comes to
the same as the chunk loaded in its place. -/
theorem append_load (m : Merged) (t : Bytewise.Tally) (chunk : List UInt8)
    (hsize : m.rows + chunk.length ≤ lastRow) :
    let r := Bytewise.split d e .always ⟨m.rows, 0, m.bytesRead⟩ .handing [] t chunk
    let s := m.table.addAll (r.handed.map Handed.entry).reverse
    m.append (Part.load d e m.table.config chunk) = ⟨s.1, r.rows, r.bytesRead, m.refused + s.2⟩ ∧
      r.rows ≤ m.rows + chunk.length := by
  intro r s
  obtain ⟨rows, found, h, -⟩ := Bytewise.exists_finds d e chunk 0
  obtain ⟨hrows, hread, hhanded⟩ := h.split_eq m.rows m.bytesRead [] t
  have hrows_le : rows ≤ chunk.length := h.rows_le
  have hs : s = m.table.addAll (found.map (Table.shift m.rows)) := by
    show m.table.addAll (r.handed.map Handed.entry).reverse = _
    rw [hhanded, List.map_nil, List.append_nil, List.reverse_reverse]
  have hroom : ∀ cell ∈ found, cell.1 + m.rows ≤ lastRow := fun cell hcell => by
    have := h.lt_rows cell hcell
    omega
  obtain ⟨happend, hrefused⟩ := Table.append_addAll (.of_follows h.follows) m.table hroom
  refine ⟨?_, hrows.trans_le (Nat.add_le_add_left hrows_le _)⟩
  rw [Part.load_eq h (Nat.le_of_add_left_le hsize), append]
  dsimp only
  rw [happend, hrefused, ← hs]
  show Merged.mk _ _ _ _ = ⟨s.1, r.rows, r.bytesRead, m.refused + s.2⟩
  rw [hrows, hread]
  rfl

/-- The chunks of a text, put together one after another, come to the same as
the text. -/
theorem foldl_append_load (hd : d.separator ≠ d.lineEnd) {pieces : List (List UInt8)}
    {bytes : List UInt8} (h : Pieces d.lineEnd pieces bytes) (m : Merged) (t : Bytewise.Tally)
    (hsize : m.rows + bytes.length ≤ lastRow) :
    let r := Bytewise.split d e .always ⟨m.rows, 0, m.bytesRead⟩ .handing [] t bytes
    let s := m.table.addAll (r.handed.map Handed.entry).reverse
    (pieces.map (Part.load d e m.table.config)).foldl append m =
      ⟨s.1, r.rows, r.bytesRead, m.refused + s.2⟩ := by
  -- On the pieces; the split goes on after a line end as if it began there.
  induction h generalizing m t with
  | last => exact (append_load m t _ hsize).1
  | @cons xs pieces rest h ih =>
    have hlength : (xs ++ d.lineEnd :: rest).length = (xs ++ [d.lineEnd]).length + rest.length := by
      rw [List.append_cons, List.length_append]
    rw [hlength] at hsize
    obtain ⟨hhead, hrows⟩ := append_load (d := d) (e := e) m t (xs ++ [d.lineEnd])
      (by omega)
    dsimp only at ih hhead hrows ⊢
    rw [List.map_cons, List.foldl_cons, hhead, Bytewise.split_append hd xs _ _ _ rest]
    generalize Bytewise.split d e .always ⟨m.rows, 0, m.bytesRead⟩ .handing [] t
      (xs ++ [d.lineEnd]) = head at hrows ⊢
    have hrest := ih ⟨(m.table.addAll (head.handed.map Handed.entry).reverse).1, head.rows,
      head.bytesRead, m.refused + (m.table.addAll (head.handed.map Handed.entry).reverse).2⟩
      ⟨head.bytesRead, head.progress⟩ (by dsimp only; omega)
    dsimp only at hrest
    rw [Table.config_addAll] at hrest
    rw [hrest]
    obtain ⟨hrows, hread, hhanded⟩ := Bytewise.split_handed (d := d) (e := e) head.rows
      head.bytesRead head.handed ⟨head.bytesRead, head.progress⟩ rest
    rw [hrows, hread, hhanded, List.reverse_append, Table.addAll_append, Nat.add_assoc]

/-- If line ends separate cells, each chunk is a row. -/
theorem rows_foldl_append_load (hd : d.separator = d.lineEnd) {pieces : List (List UInt8)}
    (h : ∀ piece ∈ pieces, piece ≠ []) (config : TableConfig) (m : Merged) :
    ((pieces.map (Part.load d e config)).foldl append m).rows = m.rows + pieces.length := by
  induction pieces generalizing m with
  | nil => rfl
  | cons piece pieces ih =>
    have hrows : (m.append (Part.load d e config piece)).rows = m.rows + 1 := by
      show m.rows + (Part.load d e config piece).rows = _
      rw [Part.rows_load,
        Bytewise.split_rows_of_eq hd fun hnil => h piece (List.mem_cons_self ..) hnil.1]
    rw [List.map_cons, List.foldl_cons, ih (fun piece hp => h piece (List.mem_cons_of_mem _ hp)),
      hrows, List.length_cons]
    omega

end Merged

/-! ### Workers -/

namespace Pool

/-- What workers have to be relied on for: they finish each chunk once, in
whatever order, and what they have finished is put together in the order of
the chunks. -/
structure Orderly (pool : Pool) : Prop where
  finishes : ∀ parts, (pool.finish parts).Perm parts
  collects : ∀ (parts : List Part) (done : List (Part × Nat)), done.Perm parts.zipIdx →
    pool.collect done = parts

theorem Orderly.collect_finish {pool : Pool} (h : pool.Orderly) (parts : List Part) :
    pool.collect (pool.finish parts.zipIdx) = parts :=
  h.collects parts _ (h.finishes parts.zipIdx)

theorem foldl_progress_load (chunks : List (List UInt8)) (config : TableConfig) (start : Nat) :
    (chunks.map (Part.load d e config)).foldl (fun progress part => progress + part.progress) start =
      start + chunks.flatten.length := by
  induction chunks generalizing start with
  | nil => rfl
  | cons chunk chunks ih =>
    rw [List.map_cons, List.foldl_cons, ih, Part.progress_load, List.flatten_cons,
      List.length_append, Nat.add_assoc]

/-- The bytes that are accounted for do not depend on the order in which the
chunks are finished. -/
theorem Orderly.foldl_progress {pool : Pool} (h : pool.Orderly) (chunks : List (List UInt8))
    (config : TableConfig) (start : Nat) :
    (pool.finish (chunks.map (Part.load d e config)).zipIdx).foldl
      (fun progress part => progress + part.1.progress) start = start + chunks.flatten.length := by
  calc
    _ = (chunks.map (Part.load d e config)).zipIdx.foldl
          (fun progress part => progress + part.1.progress) start :=
        (h.finishes _).foldl_eq' (fun _ _ _ _ progress => Nat.add_right_comm progress ..) start
    _ = ((chunks.map (Part.load d e config)).zipIdx.map Prod.fst).foldl
          (fun progress part => progress + part.progress) start := by rw [List.foldl_map]
    _ = start + chunks.flatten.length := by rw [List.zipIdx_map_fst, foldl_progress_load]

/-- Workers that finish their chunks in any order are orderly if the parts are
then sorted by the numbers of the chunks. -/
theorem orderly_of_finish {finish : List (Part × Nat) → List (Part × Nat)}
    (h : ∀ parts, (finish parts).Perm parts) : ({ inTurn with finish } : Pool).Orderly := by
  refine ⟨h, fun parts done hdone => ?_⟩
  have hnumbers : (parts.zipIdx.map Prod.snd).Pairwise (· < ·) := by
    rw [List.zipIdx_map_snd]
    exact List.pairwise_lt_range'
  have hsorted := List.pairwise_mergeSort' (fun a b : Part × Nat => a.2 ≤ b.2) done
  have heq : (done.mergeSort fun a b => a.2 ≤ b.2) = parts.zipIdx := by
    refine ((List.mergeSort_perm ..).trans hdone).eq_of_pairwise ?_ hsorted
      ((List.pairwise_map.mp hnumbers).imp Nat.le_of_lt)
    intro a b ha hb hab hba
    -- Two parts with one number are one.
    have ha := List.mem_zipIdx_iff_getElem?.mp (hdone.mem_iff.mp (List.mem_mergeSort.mp ha))
    have hb := List.mem_zipIdx_iff_getElem?.mp hb
    rw [Nat.le_antisymm hab hba, hb] at ha
    exact Prod.ext (Option.some.inj ha).symm (Nat.le_antisymm hab hba)
  show (done.mergeSort fun a b => a.2 ≤ b.2).map Prod.fst = parts
  rw [heq, List.zipIdx_map_fst]

theorem orderly_inTurn : inTurn.Orderly := orderly_of_finish fun _ => .refl _

end Pool

end Tabular
