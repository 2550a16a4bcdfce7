/-
Tables that are written and read again.

* `Table.written`, `Table.texts` — the rows that are written, and the rows that
  one would like to read;
* `Table.flatten_lines` — what is written is the document of the rows;
* `Table.readBytes_write` — what is read of it;
* `Table.readBytes_write_always`, `Table.readBytes_write_ifNeeded_iff` — when
  that is what was written.
-/
import Tabular.Proofs.Write.Mark
import Tabular.Proofs.Write.Rows

namespace Tabular

theorem flatten_map_encode (e : Encoding) (lines : List (List Char)) :
    (lines.map e.encode).flatten = e.encode lines.flatten := by
  induction lines with
  | nil => rfl
  | cons line lines ih =>
    rw [List.map_cons, List.flatten_cons, List.flatten_cons, ih, Encoding.encode, Encoding.encode,
      Encoding.encode, List.flatMap_append]

theorem mem_intercalate {α : Type} {sep : List α} {xs : List (List α)} {a : α}
    (h : a ∈ sep.intercalate xs) : a ∈ sep ∨ ∃ x ∈ xs, a ∈ x := by
  induction xs with
  | nil => simp at h
  | cons x xs ih =>
    cases xs with
    | nil =>
      rw [List.intercalate_singleton] at h
      exact .inr ⟨x, List.mem_cons_self .., h⟩
    | cons y ys =>
      rw [List.intercalate_cons_cons, List.append_assoc, List.mem_append, List.mem_append] at h
      rcases h with hx | hsep | hrest
      · exact .inr ⟨x, List.mem_cons_self .., hx⟩
      · exact .inl hsep
      · rcases ih hrest with hsep | ⟨z, hz, ha⟩
        · exact .inl hsep
        · exact .inr ⟨z, List.mem_cons_of_mem _ hz, ha⟩

namespace Format

variable {f : Format} {s q : Char} {p : Enclosure}

theorem mem_enclose {cell : List Char} {c : Char} (h : c ∈ enclose q cell) : c = q ∨ c ∈ cell := by
  rw [enclose, List.mem_append, List.mem_cons, List.mem_flatMap, List.mem_singleton] at h
  rcases h with (rfl | ⟨d, hd, hc⟩) | rfl
  · exact .inl rfl
  · split at hc
    · simp only [List.mem_cons, List.not_mem_nil, or_false, or_self] at hc
      exact .inl hc
    · rw [List.mem_singleton.mp hc]
      exact .inr hd
  · exact .inl rfl

/-- Nothing is written of a row only if it has just one cell, which is empty
and not enclosed. -/
theorem Rereads.rowText_eq_nil_iff (h : f.Rereads s q) {cells : List (List Char)}
    (hne : cells ≠ []) :
    f.rowText p s cells = [] ↔ cells = [[]] ∧ f.encloses p [] = false := by
  cases cells with
  | nil => exact absurd rfl hne
  | cons cell cells =>
    cases cells with
    | nil =>
      rw [rowText, List.map_singleton, List.intercalate_singleton, h.cellText_eq]
      constructor
      · intro hnil
        split at hnil
        · simp [enclose] at hnil
        · rename_i he
          subst hnil
          exact ⟨rfl, Bool.eq_false_iff.mpr he⟩
      · rintro ⟨hcell, he⟩
        obtain rfl : cell = [] := by simpa using hcell
        rw [if_neg (by simp [he])]
    | cons cell' cells =>
      rw [rowText_cons_cons]
      simp

/-- A cell is read as it was, unless it begins with whitespace that is
dropped. -/
theorem reread_eq_iff (f : Format) (p : Enclosure) (cell : List Char) :
    f.reread p cell = cell ↔
      ¬ (f.trims ∧ f.encloses p cell = false ∧
        (cell.head? = some ' ' ∨ cell.head? = some '\t')) := by
  have hdrop : cell.dropWhile isBlank = cell ↔
      ¬ (cell.head? = some ' ' ∨ cell.head? = some '\t') := by
    cases cell with
    | nil => simp
    | cons c cell =>
      have hblank : isBlank c = true ↔ c = ' ' ∨ c = '\t' := by
        simp [isBlank, CellBuffer.empty]
      rw [List.head?_cons, Option.some.injEq, Option.some.injEq, ← hblank]
      by_cases hc : isBlank c
      · rw [List.dropWhile_cons_of_pos hc]
        have hlt : (cell.dropWhile isBlank).length < (c :: cell).length :=
          Nat.lt_succ_of_le (List.dropWhile_sublist _).length_le
        exact iff_of_false (fun heq => absurd (congrArg List.length heq) (Nat.ne_of_lt hlt))
          (not_not.mpr hc)
      · rw [List.dropWhile_cons_of_neg hc]
        exact iff_of_true rfl hc
  rw [reread]
  split
  · rename_i hcond
    rw [hdrop]
    simp [hcond]
  · rename_i hcond
    refine iff_of_true rfl fun hall => hcond ⟨hall.1, hall.2.1⟩

end Format

theorem Rows.ofCells_eq_iff {f : Format} {p : Enclosure} {cells : List (List Char)} :
    Rows.ofCells f p cells = (cells.map String.ofList).toArray ↔
      ∀ cell ∈ cells, f.reread p cell = cell := by
  have hlists : Rows.ofCells f p cells = (cells.map String.ofList).toArray ↔
      (cells.map fun cell => String.ofList (f.reread p cell)) = cells.map String.ofList :=
    ⟨fun h => congrArg Array.toList h, fun h => congrArg List.toArray h⟩
  rw [hlists, List.map_inj_left]
  simp only [String.ofList_inj]

namespace Table

variable {t : Table} {f : Format} {s q : Char} {p : Enclosure}

/-- The rows that are written. -/
def written (t : Table) : List (List (List Char)) :=
  t.rowIndices.map fun row => (t.rowCells row).map String.toList

/-- The rows that have a cell, each with a text in every column, which is empty
where a cell is missing. -/
def texts (t : Table) : Rows :=
  (t.rowIndices.map fun row =>
    ((List.range t.columnCount).map fun column => (t.get? row column).getD "").toArray).toArray

/-- A format represents what it writes of a table: all of its characters, the
separator and the quote, and no CR LF where that is folded. -/
structure FitsIn (t : Table) (f : Format) (s q : Char) : Prop where
  separator : (writtenEncoding f).represents s
  enclosing : (writtenEncoding f).represents q
  represents : ∀ row column text, t.get? row column = some text →
    ∀ c ∈ text.toList, (writtenEncoding f).represents c
  unfolded : f.folds → ∀ row column text, t.get? row column = some text →
    ¬ ['\r', '\n'] <:+: text.toList

theorem rowCells_eq (t : Table) (row : Nat) :
    t.rowCells row = (List.range t.columnCount).map fun column => (t.get? row column).getD "" := by
  refine List.ext_getElem (by simp [rowCells, columnCount]) fun column h h' => ?_
  have hlt : column < t.columns.size := by simpa [rowCells] using h
  simp [rowCells, get?, Array.getElem?_eq_getElem hlt]

theorem texts_eq (t : Table) :
    t.texts = (t.written.map fun cells => (cells.map String.ofList).toArray).toArray := by
  rw [texts, written, List.map_map]
  refine congrArg _ (List.map_congr_left fun row _ => ?_)
  rw [Function.comp_apply, List.map_map, ← rowCells_eq]
  refine congrArg _ ((List.map_congr_left fun text _ => ?_).trans (List.map_id _)).symm
  exact String.ofList_toList

theorem mem_written {cells : List (List Char)} :
    cells ∈ t.written ↔ ∃ row ∈ t.rowIndices, cells = (List.range t.columnCount).map fun column =>
      ((t.get? row column).getD "").toList := by
  rw [written, List.mem_map]
  simp only [rowCells_eq, List.map_map, eq_comm]
  rfl

theorem ne_nil_of_mem_written {cells : List (List Char)} (h : cells ∈ t.written) : cells ≠ [] := by
  rintro rfl
  obtain ⟨row, hrow, hnil⟩ := List.mem_map.mp h
  have hcolumns : t.columns.toList = [] := by
    simpa [rowCells] using hnil
  rw [rowIndices, hcolumns] at hrow
  exact absurd (show row ∈ ([] : List Nat).eraseReps by simpa using hrow) List.not_mem_nil

/-- What is written of a cell of the table. -/
theorem get?_of_mem {cells : List (List Char)} {cell : List Char} (hcells : cells ∈ t.written)
    (hcell : cell ∈ cells) : cell = [] ∨ ∃ row column text, t.get? row column = some text ∧
      cell = text.toList := by
  obtain ⟨row, -, rfl⟩ := mem_written.mp hcells
  obtain ⟨column, -, rfl⟩ := List.mem_map.mp hcell
  cases hget : t.get? row column with
  | none => exact .inl rfl
  | some text => exact .inr ⟨row, column, text, hget, rfl⟩

/-- What is written is the document of the rows. -/
theorem flatten_lines (t : Table) (f : Format) (p : Enclosure) (s : Char) :
    (t.lines f p s).flatten = f.document p s f.lineEnding.text.toList t.written := by
  have hline : ∀ row, t.line f p s row = f.rowText p s ((t.rowCells row).map String.toList) := by
    intro row
    rw [line, Format.rowText, List.map_map]
    rfl
  -- From the second row on, a line ending comes before each.
  have hlater : ∀ (rows : List Nat) (i : Nat), i ≠ 0 → ∀ first : List Char,
      first ++ ((rows.zipIdx i).map fun q =>
        (if q.2 = 0 then [] else f.lineEnding.text.toList) ++ t.line f p s q.1).flatten =
      f.lineEnding.text.toList.intercalate (first :: rows.map (t.line f p s)) := by
    intro rows
    induction rows with
    | nil =>
      intro i _ first
      simp
    | cons row rows ih =>
      intro i hi first
      rw [List.zipIdx_cons, List.map_cons, List.flatten_cons, List.map_cons,
        List.intercalate_cons_cons, ← ih (i + 1) (Nat.succ_ne_zero i)]
      simp only [if_neg hi, List.append_assoc]
  rw [lines, Format.document, written, List.map_map]
  simp only [Function.comp_def, ← hline]
  cases t.rowIndices with
  | nil => rfl
  | cons row rows =>
    rw [List.zipIdx_cons, List.map_cons, List.flatten_cons, List.map_cons,
      ← hlater rows 1 Nat.one_ne_zero]
    rfl

/-! ### What is read of a written table -/

theorem represents_lineEnding (e : Encoding) (l : LineEnding) :
    ∀ c ∈ l.text.toList, e.represents c := by
  have hcr : e.represents '\r' := by cases e <;> decide
  have hlf : e.represents '\n' := by cases e <;> decide
  intro c hc
  cases l with
  | lf =>
    obtain rfl := List.mem_singleton.mp hc
    exact hlf
  | crlf =>
    rcases List.mem_cons.mp hc with rfl | hc
    · exact hcr
    · obtain rfl := List.mem_singleton.mp hc
      exact hlf
  | cr =>
    obtain rfl := List.mem_singleton.mp hc
    exact hcr

/-- All that is written is represented. -/
theorem FitsIn.represents_document (ht : t.FitsIn f s q) (h : f.Rereads s q) (p : Enclosure) :
    ∀ c ∈ f.document p s f.lineEnding.text.toList t.written, (writtenEncoding f).represents c := by
  intro c hc
  rcases mem_intercalate hc with hc | ⟨_, hrow, hc⟩
  · exact represents_lineEnding _ _ c hc
  · obtain ⟨cells, hcells, rfl⟩ := List.mem_map.mp hrow
    rcases mem_intercalate hc with hc | ⟨_, hwritten, hc⟩
    · obtain rfl := List.mem_singleton.mp hc
      exact ht.separator
    · obtain ⟨cell, hcell, rfl⟩ := List.mem_map.mp hwritten
      -- A quote, or a character of the cell.
      have hinside : c = q ∨ c ∈ cell := by
        rw [h.cellText_eq] at hc
        split at hc
        · exact Format.mem_enclose hc
        · exact .inr hc
      rcases hinside with rfl | hc
      · exact ht.enclosing
      · rcases get?_of_mem hcells hcell with rfl | ⟨row, column, text, hget, rfl⟩
        · simp at hc
        · exact ht.represents row column text hget c hc

theorem FitsIn.unfolded_written (ht : t.FitsIn f s q) :
    f.folds → ∀ cells ∈ t.written, ∀ cell ∈ cells, ¬ ['\r', '\n'] <:+: cell := by
  intro hf cells hcells cell hcell
  rcases get?_of_mem hcells hcell with rfl | ⟨row, column, text, hget, rfl⟩
  · exact fun hin => absurd hin.length_le (by decide)
  · exact ht.unfolded hf row column text hget

theorem write_eq (h : f.Rereads s q) (t : Table) (p : Enclosure) :
    t.write f p = .ok (writtenMark f ++ (t.lines f p s).map (writtenEncoding f).encode) := by
  have hs : f.separator.char? = some s := by rw [h.separator]; rfl
  have hq : f.enclosing ≠ .auto := by
    rw [h.enclosing]
    exact fun heq => Delimiter.noConfusion heq
  rw [write, hs]
  exact if_neg hq

/-- A table that is written and read again gives its rows, each cell as it is
read, but the last row if nothing is written of it. -/
theorem readBytes_write (h : f.Rereads s q) (hp : p ≠ .never) (ht : t.FitsIn f s q)
    (hmark : (t.lines f p s).flatten.head? ≠ some '\uFEFF')
    (hzero : (t.lines f p s).flatten.head? ≠ some '\x00') :
    ∃ pieces summary, t.write f p = .ok pieces ∧
      (readBytes pieces.flatten f {} .always).result = .ok summary ∧
      Rows.addAll #[] (readBytes pieces.flatten f {} .always).handed =
        ((f.rowsRead p s t.written).map (Rows.ofCells f p)).toArray := by
  rw [flatten_lines] at hmark hzero
  have hrepresents := ht.represents_document h p
  obtain ⟨text, htext⟩ : ∃ text, text = f.document p s f.lineEnding.text.toList t.written :=
    ⟨_, rfl⟩
  rw [← htext] at hmark hzero hrepresents
  have hbytes : (writtenMark f ++ (t.lines f p s).map (writtenEncoding f).encode).flatten =
      (writtenMark f).flatten ++ (writtenEncoding f).encode text := by
    rw [htext, ← flatten_lines, List.flatten_append, flatten_map_encode]
  have hresolve := resolve_written hrepresents hmark hzero
  have hgroups := Encoding.groups_encode hrepresents
  generalize hmarked : (writtenMark f).flatten ++ (writtenEncoding f).encode text = bytes at *
  have hdrop : bytes.drop (writtenMark f).flatten.length = (writtenEncoding f).encode text := by
    rw [← hmarked, List.drop_left]
  -- Quotes keep the text from being split as bytes.
  have hsplits :
      (({} : ReadOptions).allowBytewise && f.splitsBytes (writtenEncoding f)) = false := by
    rw [Format.splitsBytes, h.enclosing]
    rfl
  obtain ⟨summary, progress, hread⟩ := readBytes_always (o := {}) hresolve hsplits rfl
    (.inl (by decide)) h.settled (hdrop ▸ hgroups)
  refine ⟨_, summary, write_eq h t p, ?_, ?_⟩
  · rw [hbytes, hread]
  · rw [hbytes, hread, Rows.addAll_eq_foldl]
    -- The bytes are decoded as what was written, and folding undoes the line endings.
    have hchars : (logical f.folds (Strategy.decode.scanned (writtenEncoding f) bytes.length
        (text.flatMap (writtenEncoding f).charUnits))).map Scanned.char =
        f.document p s [f.lineEnding.readChar] t.written := by
      refine h.logical_document hp ht.unfolded_written ?_
      rw [Strategy.map_char_scanned (by decide), Encoding.decode_charUnits hrepresents, htext]
    have hentries := h.handedFrom_document
      (k := ⟨.decode, writtenEncoding f, bytes, bytes.length⟩) hp rfl
      (fun _ => ne_nil_of_mem_written) 0 hchars
    have hrows : ∀ cells ∈ f.rowsRead p s t.written, cells ≠ [] :=
      fun cells hcells => ne_nil_of_mem_written (Format.mem_of_mem_rowsRead hcells)
    refine (congrArg (List.foldl Rows.put #[]) hentries).trans ?_
    exact (Rows.foldl_put_entries #[] hrows).trans (Array.empty_append ..)

/-- If every cell is enclosed, the first character is a quote. -/
theorem head?_lines_always (h : f.Rereads s q) (t : Table) {c : Char}
    (hc : (t.lines f .always s).flatten.head? = some c) : c = q := by
  have hcell : ∀ (cell rest : List Char), (f.cellText .always cell ++ rest).head? = some q := by
    intro cell rest
    rw [h.cellText_eq]
    rfl
  have hrow : ∀ (cells : List (List Char)) (rest : List Char), cells ≠ [] →
      (f.rowText .always s cells ++ rest).head? = some q := by
    intro cells rest hne
    cases cells with
    | nil => exact absurd rfl hne
    | cons cell cells =>
      cases cells with
      | nil =>
        rw [Format.rowText, List.map_singleton, List.intercalate_singleton]
        exact hcell cell rest
      | cons cell' cells =>
        rw [Format.rowText_cons_cons, List.append_assoc]
        exact hcell cell _
  -- No row is without a cell, so there is a quote to begin with.
  have hrows := fun cells => @ne_nil_of_mem_written t cells
  rw [flatten_lines] at hc
  generalize t.written = rows at hc hrows
  cases rows with
  | nil => simp [Format.document] at hc
  | cons cells rows =>
    have hne := hrows cells (List.mem_cons_self ..)
    cases rows with
    | nil =>
      rw [Format.document, List.map_singleton, List.intercalate_singleton,
        ← List.append_nil (f.rowText ..), hrow cells [] hne] at hc
      exact (Option.some.inj hc).symm
    | cons cells' rows =>
      rw [Format.document_cons_cons, hrow cells _ hne] at hc
      exact (Option.some.inj hc).symm

/-- The rows are read as they were if each cell is, and something is written of
the last row. -/
theorem rowsRead_written_iff (t : Table) (f : Format) (p : Enclosure) (s : Char) :
    ((f.rowsRead p s t.written).map (Rows.ofCells f p)).toArray = t.texts ↔
      (∀ cells ∈ t.written, ∀ cell ∈ cells, f.reread p cell = cell) ∧
        ∀ cells ∈ t.written.getLast?, f.rowText p s cells ≠ [] := by
  rw [texts_eq]
  constructor
  · intro heq
    have heq := congrArg Array.toList heq
    -- A row that is lost is missing from the number of rows.
    have hlast : ∀ cells ∈ t.written.getLast?, f.rowText p s cells ≠ [] := by
      intro cells hcells hnil
      have hlt := Format.length_rowsRead_lt hcells hnil
      have hlen := congrArg List.length heq
      rw [List.length_map, List.length_map] at hlen
      exact absurd hlen (Nat.ne_of_lt hlt)
    refine ⟨fun cells hcells => Rows.ofCells_eq_iff.mp ?_, hlast⟩
    change (f.rowsRead p s t.written).map _ = t.written.map _ at heq
    rw [Format.rowsRead_eq_self hlast, List.map_inj_left] at heq
    exact heq cells hcells
  · rintro ⟨hcells, hlast⟩
    rw [Format.rowsRead_eq_self hlast]
    refine congrArg _ (List.map_congr_left fun cells hmem => ?_)
    exact Rows.ofCells_eq_iff.mpr (hcells cells hmem)

/-- A table of which every cell is written between quotes is read as it was:
each row that has a cell, in their order, with a text in every column. -/
theorem readBytes_write_always (h : f.Rereads s q) (hq : q ≠ '\x00' ∧ q ≠ '\uFEFF')
    (ht : t.FitsIn f s q) :
    ∃ pieces summary, t.write f .always = .ok pieces ∧
      (readBytes pieces.flatten f {} .always).result = .ok summary ∧
      Rows.addAll #[] (readBytes pieces.flatten f {} .always).handed = t.texts := by
  have hmark : (t.lines f .always s).flatten.head? ≠ some '\uFEFF' :=
    fun hhead => hq.2 (head?_lines_always h t hhead).symm
  have hzero : (t.lines f .always s).flatten.head? ≠ some '\x00' :=
    fun hhead => hq.1 (head?_lines_always h t hhead).symm
  obtain ⟨pieces, summary, hwrite, hresult, hrows⟩ :=
    readBytes_write h (by decide) ht hmark hzero
  refine ⟨pieces, summary, hwrite, hresult, hrows.trans ?_⟩
  refine (rowsRead_written_iff t f .always s).mpr ⟨?_, ?_⟩
  · intro cells _ cell _
    rw [Format.reread_eq_iff]
    rintro ⟨-, he, -⟩
    simp [Format.encloses] at he
  · intro cells hlast hnil
    have hne := ne_nil_of_mem_written (List.mem_of_getLast? hlast)
    obtain ⟨-, he⟩ := (h.rowText_eq_nil_iff hne).mp hnil
    simp [Format.encloses] at he

/-- Rows that come in order column by column need not be sorted. -/
theorem rowIndices_of_pairwise {t : Table}
    (h : (t.columns.toList.flatMap Column.rows).Pairwise (· ≤ ·)) :
    t.rowIndices = (t.columns.toList.flatMap Column.rows).eraseReps := by
  rw [rowIndices, List.mergeSort_of_pairwise (by simpa using h)]

/-- A cell with quotes in it, one that is CR LF, and two that are missing. -/
theorem readBytes_write_always_quotes :
    let f : Format := { Format.csv with keepsCrLf := true, writesMark := true }
    let t := ((empty {}).add "say \"hi\"" 0 0).add "\r\n" 2 1
    f.Rereads ',' '"' ∧ t.FitsIn f ',' '"' ∧ t.texts = #[#["say \"hi\"", ""], #["", "\r\n"]] ∧
      ∃ pieces summary, t.write f .always = .ok pieces ∧
        (readBytes pieces.flatten f {} .always).result = .ok summary ∧
        Rows.addAll #[] (readBytes pieces.flatten f {} .always).handed = t.texts := by
  intro f t
  have hf : f.Rereads ',' '"' := by
    constructor <;> decide
  have ht : t.FitsIn f ',' '"' :=
    ⟨rfl, rfl, fun _ _ _ _ _ _ => rfl, fun hfolds => absurd hfolds (by decide)⟩
  have hrows : t.rowIndices = [0, 2] :=
    (rowIndices_of_pairwise (by decide +kernel)).trans (by decide +kernel)
  have htexts : t.texts = #[#["say \"hi\"", ""], #["", "\r\n"]] := by
    rw [texts, hrows]
    decide +kernel
  exact ⟨hf, ht, htexts, readBytes_write_always hf (by decide) ht⟩

/-- No cell loses whitespace if none that is not enclosed begins with it. -/
theorem reread_written_iff (t : Table) (f : Format) :
    (∀ cells ∈ t.written, ∀ cell ∈ cells, f.reread .ifNeeded cell = cell) ↔
      ¬ (f.trims ∧ ∃ row ∈ t.rowIndices, ∃ column < t.columnCount,
        let cell := ((t.get? row column).getD "").toList
        f.needsEnclosing cell = false ∧ (cell.head? = some ' ' ∨ cell.head? = some '\t')) := by
  constructor
  · rintro hall ⟨htrims, row, hrow, column, hcolumn, hn, hblank⟩
    have hcell := hall _ (mem_written.mpr ⟨row, hrow, rfl⟩) _
      (List.mem_map.mpr ⟨column, List.mem_range.mpr hcolumn, rfl⟩)
    exact (f.reread_eq_iff _ _).mp hcell ⟨htrims, hn, hblank⟩
  · intro hnone cells hcells cell hcell
    obtain ⟨row, hrow, rfl⟩ := mem_written.mp hcells
    obtain ⟨column, hcolumn, rfl⟩ := List.mem_map.mp hcell
    rw [Format.reread_eq_iff]
    rintro ⟨htrims, hn, hblank⟩
    exact hnone ⟨htrims, row, hrow, column, List.mem_range.mp hcolumn, hn, hblank⟩

/-- Something is written of the last row if it is not just one empty cell. -/
theorem rowText_written_iff (h : f.Rereads s q) (t : Table) :
    (∀ cells ∈ t.written.getLast?, f.rowText .ifNeeded s cells ≠ []) ↔
      ¬ (t.columnCount = 1 ∧ ∃ row ∈ t.rowIndices.getLast?, (t.get? row 0).getD "" = "") := by
  have hrow : ∀ row ∈ t.rowIndices.getLast?,
      f.rowText .ifNeeded s ((t.rowCells row).map String.toList) = [] ↔
        t.columnCount = 1 ∧ (t.get? row 0).getD "" = "" := by
    intro row hlast
    have hmem : (t.rowCells row).map String.toList ∈ t.written :=
      List.mem_map.mpr ⟨row, List.mem_of_getLast? hlast, rfl⟩
    rw [h.rowText_eq_nil_iff (ne_nil_of_mem_written hmem), rowCells_eq, List.map_map]
    constructor
    · rintro ⟨heq, -⟩
      have hone : t.columnCount = 1 := by
        simpa using congrArg List.length heq
      rw [hone] at heq
      exact ⟨hone, String.toList_eq_nil_iff.mp (List.cons.inj heq).1⟩
    · rintro ⟨hone, hempty⟩
      rw [hone]
      refine ⟨?_, rfl⟩
      show [((t.get? row 0).getD "").toList] = [[]]
      rw [hempty]
      rfl
  rw [written, List.getLast?_map]
  constructor
  · rintro hall ⟨hone, row, hlast, hempty⟩
    exact hall _ (Option.mem_map_of_mem _ hlast) ((hrow row hlast).mpr ⟨hone, hempty⟩)
  · rintro hnone cells hcells hnil
    obtain ⟨row, hlast, rfl⟩ := Option.map_eq_some_iff.mp hcells
    obtain ⟨hone, hempty⟩ := (hrow row hlast).mp hnil
    exact hnone ⟨hone, row, hlast, hempty⟩

/-- A table of which only those cells are enclosed that need to be is read as
it was, unless a cell loses whitespace before it, or nothing is written of the
last row. -/
theorem readBytes_write_ifNeeded_iff (h : f.Rereads s q) (ht : t.FitsIn f s q)
    (hmark : (t.lines f .ifNeeded s).flatten.head? ≠ some '\uFEFF')
    (hzero : (t.lines f .ifNeeded s).flatten.head? ≠ some '\x00') :
    ∃ pieces summary, t.write f .ifNeeded = .ok pieces ∧
      (readBytes pieces.flatten f {} .always).result = .ok summary ∧
      (Rows.addAll #[] (readBytes pieces.flatten f {} .always).handed = t.texts ↔
        ¬ (f.trims ∧ ∃ row ∈ t.rowIndices, ∃ column < t.columnCount,
            let cell := ((t.get? row column).getD "").toList
            f.needsEnclosing cell = false ∧ (cell.head? = some ' ' ∨ cell.head? = some '\t')) ∧
          ¬ (t.columnCount = 1 ∧ ∃ row ∈ t.rowIndices.getLast?, (t.get? row 0).getD "" = "")) := by
  obtain ⟨pieces, summary, hwrite, hresult, hrows⟩ :=
    readBytes_write h (by decide) ht hmark hzero
  refine ⟨pieces, summary, hwrite, hresult, ?_⟩
  rw [hrows, rowsRead_written_iff, reread_written_iff, rowText_written_iff h]

/-- Two columns that are read as they were, and a single one of which the last
row is lost. -/
theorem readBytes_write_ifNeeded_columns :
    let f : Format := { Format.csv with keepsCrLf := true }
    let t := ((empty {}).add "a,b" 0 0).add "" 1 1
    let t' := ((empty {}).add "a,b" 0 0).add "" 1 0
    f.Rereads ',' '"' ∧ t.FitsIn f ',' '"' ∧ t'.FitsIn f ',' '"' ∧
      (∃ pieces, t.write f .ifNeeded = .ok pieces ∧
        Rows.addAll #[] (readBytes pieces.flatten f {} .always).handed = t.texts) ∧
      ∃ pieces, t'.write f .ifNeeded = .ok pieces ∧
        Rows.addAll #[] (readBytes pieces.flatten f {} .always).handed ≠ t'.texts := by
  intro f t t'
  have hf : f.Rereads ',' '"' := by
    constructor <;> decide
  have hfits : ∀ t : Table, t.FitsIn f ',' '"' := fun t =>
    ⟨rfl, rfl, fun _ _ _ _ _ _ => rfl, fun hfolds => absurd hfolds (by decide)⟩
  have hrows : t.rowIndices = [0, 1] :=
    (rowIndices_of_pairwise (by decide +kernel)).trans (by decide +kernel)
  have hrows' : t'.rowIndices = [0, 1] :=
    (rowIndices_of_pairwise (by decide +kernel)).trans (by decide +kernel)
  have hhead : (t.lines f .ifNeeded ',').flatten.head? = some '"' := by
    rw [lines, hrows]
    decide +kernel
  have hhead' : (t'.lines f .ifNeeded ',').flatten.head? = some '"' := by
    rw [lines, hrows']
    decide +kernel
  obtain ⟨pieces, -, hwrite, -, hiff⟩ := readBytes_write_ifNeeded_iff hf (hfits t)
    (by rw [hhead]; decide) (by rw [hhead]; decide)
  obtain ⟨pieces', -, hwrite', -, hiff'⟩ := readBytes_write_ifNeeded_iff hf (hfits t')
    (by rw [hhead']; decide) (by rw [hhead']; decide)
  refine ⟨hf, hfits t, hfits t', ⟨pieces, hwrite, hiff.mpr ⟨?_, ?_⟩⟩, pieces', hwrite', ?_⟩
  · exact fun h => absurd h.1 (by decide)
  · exact fun h => absurd h.1 (by decide)
  · have hlast : t'.rowIndices.getLast? = some 1 := by rw [hrows', List.getLast?_cons_cons]; rfl
    exact fun heq => (hiff'.mp heq).2 ⟨by decide, 1, hlast, by decide +kernel⟩

end Table

end Tabular
