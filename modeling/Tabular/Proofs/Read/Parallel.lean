/-
Two readers in step.

* `Handed.Matches` — two cells at the same place of which something holds;
* `KeepsStep` — what two readers have before them agrees as far as cells are
  read from it, and so does what comes after a cell;
* `KeepsStep.numbered`, `KeepsStep.after` — then all their cells match;
* `length_eq_of_matches` — and they fill as many lines;
* `Reader.read_parallel` — so both hand over the same, up to what makes cells
  match.

Design notes: what agrees is left open, as is what makes two cells match.  The
characters need not be the same, nor the dialects, so long as both texts come
to their ends together.
-/
import Tabular.Proofs.Read.Pull

namespace Tabular

/-- Two cells handed over at the same place. -/
structure Handed.Matches (same : Cell → Cell → Prop) (h h' : Handed) : Prop where
  row : h.row = h'.row
  column : h.column = h'.column
  cell : same h.cell h'.cell

/-- Reading a cell on either side keeps what agrees, and gives cells that
match. -/
structure KeepsStep (k k' : Handing) (same : Cell → Cell → Prop)
    (agree : Dialect → List Scanned → Dialect → List Scanned → Prop) : Prop where
  ended : ∀ {d d' cs cs'}, agree d cs d' cs' → (cs = [] ↔ cs' = [])
  ending : ∀ {d d' cs cs'}, agree d cs d' cs' → (k.read d cs).ending = (k'.read d' cs').ending
  cell : ∀ {d d' cs cs'}, agree d cs d' cs' →
    same ((k.read d cs).cell k cs) ((k'.read d' cs').cell k' cs')
  rest : ∀ {d d' cs cs'}, agree d cs d' cs' →
    agree (k.read d cs).dialect (k.read d cs).rest (k'.read d' cs').dialect (k'.read d' cs').rest

namespace KeepsStep

variable {k k' : Handing} {same : Cell → Cell → Prop}
  {agree : Dialect → List Scanned → Dialect → List Scanned → Prop} {d d' : Dialect}
  {cs cs' : List Scanned} {r r' : Reader}

/-- All cells match, where each of them stands. -/
theorem numbered (h : KeepsStep k k' same agree) (ha : agree d cs d' cs') (hr : r.Between d k cs)
    (hr' : r'.Between d' k' cs') (row column : Nat) :
    List.Forall₂ (Handed.Matches same) (Tabular.numbered row column (d.pulledFrom k cs))
      (Tabular.numbered row column (d'.pulledFrom k' cs')) := by
  -- On the characters that the first has before it, of which a terminator takes one.
  induction hn : cs.length using Nat.strongRecOn generalizing cs cs' d d' r r' row column with
  | _ n ih =>
    subst hn
    by_cases hend : cs = [] ∧ column = 0
    · obtain ⟨rfl, rfl⟩ := hend
      obtain rfl := (h.ended ha).mp rfl
      rw [Dialect.numbered_pulledFrom_nil, Dialect.numbered_pulledFrom_nil]
      exact .nil
    · have hend' : ¬ (cs' = [] ∧ column = 0) := by rwa [← h.ended ha]
      rw [Dialect.numbered_pulledFrom (fun _ => hr.head_lt) hend,
        Dialect.numbered_pulledFrom (fun _ => hr'.head_lt) hend', ← h.ending ha]
      refine .cons ⟨rfl, rfl, h.cell ha⟩ ?_
      obtain ⟨t, -, ht, -⟩ := hr.readCell
      obtain ⟨t', -, ht', -⟩ := hr'.readCell
      cases hending : (k.read d cs).ending with
      | inputEnd => exact .nil
      | terminator terminator =>
        have hlt := Dialect.length_rest_lt hending
        cases terminator with
        | separator => exact ih _ hlt (h.rest ha) ht ht' row (column + 1) rfl
        | lineEnd => exact ih _ hlt (h.rest ha) ht ht' (row + 1) 0 rfl

/-- And what is known of the dialects agrees in the end. -/
theorem after (h : KeepsStep k k' same agree) (ha : agree d cs d' cs') :
    agree (d.after k cs) [] (d'.after k' cs') [] := by
  induction hn : cs.length using Nat.strongRecOn generalizing cs cs' d d' with
  | _ n ih =>
    subst hn
    have hrest := h.rest ha
    rw [← Dialect.after_read, ← Dialect.after_read (d := d')]
    cases hending : (k.read d cs).ending with
    | inputEnd =>
      have hnil : (k.read d cs).rest = [] := Dialect.rest_eq_nil hending
      have hnil' : (k'.read d' cs').rest = [] := Dialect.rest_eq_nil (h.ending ha ▸ hending)
      rw [hnil, hnil'] at hrest ⊢
      rwa [Dialect.after_nil, Dialect.after_nil]
    | terminator t => exact ih _ (Dialect.length_rest_lt hending) hrest rfl

end KeepsStep

/-! ### Lines -/

theorem map_column_placedLine (row column : Nat) (line : List Cell) :
    (placedLine row column line).map Handed.column = List.range' column line.length := by
  induction line generalizing column with
  | nil => rfl
  | cons cell line ih => rw [placedLine_cons, List.map_cons, ih]; rfl

theorem count_column_placedLine (row : Nat) (cell : Cell) (line : List Cell) :
    ((placedLine row 0 (cell :: line)).map Handed.column).count 0 = 1 := by
  have hzero : 0 ∉ List.range' 1 line.length := by simp
  rw [map_column_placedLine, List.length_cons, List.range'_succ, List.count_cons_self,
    List.count_eq_zero_of_not_mem hzero]

/-- Lines are told by the cells that begin one. -/
theorem count_column_placedLines {lines : List (List Cell)} (h : ∀ line ∈ lines, line ≠ [])
    (row : Nat) : ((placedLines row lines).map Handed.column).count 0 = lines.length := by
  induction lines generalizing row with
  | nil => rfl
  | cons line lines ih =>
    rw [List.forall_mem_cons] at h
    obtain ⟨cell, line, rfl⟩ := List.exists_cons_of_ne_nil h.1
    rw [placedLines_cons, List.map_append, List.count_append, ih h.2, count_column_placedLine,
      List.length_cons, Nat.add_comm]

/-- Cells that match fill as many lines. -/
theorem length_eq_of_matches {same : Cell → Cell → Prop} {row row' : Nat}
    {lines lines' : List (List Cell)}
    (h : List.Forall₂ (Handed.Matches same) (placedLines row lines) (placedLines row' lines'))
    (hlines : ∀ line ∈ lines, line ≠ []) (hlines' : ∀ line ∈ lines', line ≠ []) :
    lines.length = lines'.length := by
  have hcolumns : (placedLines row lines).map Handed.column =
      (placedLines row' lines').map Handed.column := by
    rw [← List.forall₂_eq_eq_eq, List.forall₂_map_left_iff, List.forall₂_map_right_iff]
    exact h.imp fun _ _ hmatch => hmatch.column
  rw [← count_column_placedLines hlines row, hcolumns, count_column_placedLines hlines']

/-! ### Reading -/

namespace Reader

variable {k k' : Handing} {same : Cell → Cell → Prop}
  {agree : Dialect → List Scanned → Dialect → List Scanned → Prop} {d d' : Dialect}
  {cs cs' : List Scanned} {r r' : Reader}

/-- Two readers in step hand over cells that match, and count the same rows. -/
theorem read_parallel (h : KeepsStep k k' same agree) (ha : agree d cs d' cs')
    (hr : r.Between d k cs) (hr' : r'.Between d' k' cs') (hp : r.phase.isFinal = false)
    (hp' : r'.phase.isFinal = false) (hh : r.handed = []) (hh' : r'.handed = []) :
    ∃ rows t t', r.read .always = .ok (k.summary (d.after k cs) rows) t ∧
      r'.read .always = .ok (k'.summary (d'.after k' cs') rows) t' ∧
      List.Forall₂ (Handed.Matches same) t.handed.reverse t'.handed.reverse ∧
      agree (d.after k cs) [] (d'.after k' cs') [] := by
  obtain ⟨t, lines, hread, hlines, hhanded, hnumbered⟩ := hr.read hp hh
  obtain ⟨t', lines', hread', hlines', hhanded', hnumbered'⟩ := hr'.read hp' hh'
  have hmatch := h.numbered ha hr hr' 0 0
  rw [hnumbered, hnumbered'] at hmatch
  have hlength := length_eq_of_matches hmatch hlines hlines'
  exact ⟨lines.length, t, t', hread, hlength ▸ hread', hhanded ▸ hhanded' ▸ hmatch, h.after ha⟩

end Reader

end Tabular
