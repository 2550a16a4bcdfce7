/-
What verdicts leave of the cells of a text.

* `Dialect.placedFrom` — the cells that characters make up, each with the
  offset after its terminator;
* `Dialect.placedFrom_slip` — which are where they are reported to be, unless the
  text breaks off and U+FFFD ends a cell;
* `Judge.heeded` — those that are handed over;
* `Judge.stopsAt` — the offset at which the read is stopped;
* `Reader.Poised.readCells_heeded` — a line is read as the verdicts on its
  cells allow;
* `Reader.Poised.readRows_heeded` — and so is a text;
* `readBytes_heeded` — so that verdicts only leave out.

Design notes: while the rest of a line is passed over nothing of it is kept,
but it is read like any other, and what is learned from it stays.
-/
import Mathlib.Order.Interval.Finset.Nat
import Tabular.Proofs.Read.Grammar
import Tabular.Proofs.Read.Slip
import Tabular.Read.Whole

namespace Tabular

/-- A cell where it stands, and the offset after its terminator. -/
structure Placed where
  handed : Handed
  next : Nat

def Handed.inRow (row : Nat) (h : Handed) : Bool := h.row == row

def Placed.inRow (row : Nat) (p : Placed) : Bool := p.handed.inRow row

/-! ### Verdicts -/

namespace Judge

/-- The verdict on a cell. -/
def on (judge : Judge) (h : Handed) : Verdict := judge h.row h.column h.cell

/-- What is handed over of the cells of a text. -/
def heeded (judge : Judge) : List Handed → List Handed
  | [] => []
  | h :: hs =>
    h :: match judge.on h with
      | .proceed => heeded judge hs
      | .skipLine => heeded judge (hs.dropWhile (Handed.inRow h.row))
      | .stop | .skipLineThenStop => []
termination_by hs => hs.length
decreasing_by
  · exact Nat.lt_succ_self _
  · exact Nat.lt_succ_of_le (List.dropWhile_sublist _).length_le

/-- The offset at which a verdict stops the read: after the cell that it is
on, or after its row. -/
def stopsAt (judge : Judge) : List Placed → Option Nat
  | [] => none
  | p :: ps =>
    match judge.on p.handed with
    | .proceed => stopsAt judge ps
    | .skipLine => stopsAt judge (ps.dropWhile (Placed.inRow p.handed.row))
    | .stop => some p.next
    | .skipLineThenStop => some ((ps.takeWhile (Placed.inRow p.handed.row)).getLastD p).next
termination_by ps => ps.length
decreasing_by
  · exact Nat.lt_succ_self _
  · exact Nat.lt_succ_of_le (List.dropWhile_sublist _).length_le

theorem heeded_always (hs : List Handed) : Judge.always.heeded hs = hs := by
  induction hs with
  | nil => rw [heeded]
  | cons h hs ih =>
    rw [heeded]
    exact congrArg (h :: ·) ih

theorem map_dropWhile_inRow (row : Nat) (ps : List Placed) :
    (ps.dropWhile (Placed.inRow row)).map Placed.handed =
      (ps.map Placed.handed).dropWhile (Handed.inRow row) :=
  (List.dropWhile_map ..).symm

/-- The read is stopped if a verdict that is given says so. -/
theorem isSome_stopsAt (judge : Judge) (ps : List Placed) :
    (judge.stopsAt ps).isSome =
      (judge.heeded (ps.map Placed.handed)).any fun h => (judge.on h).stops := by
  fun_induction stopsAt judge ps with
  | case1 => rw [List.map_nil, heeded, Option.isSome_none, List.any_nil]
  | case2 p ps hv ih =>
    rw [List.map_cons, heeded, hv, List.any_cons, hv, ih]
    rfl
  | case3 p ps hv ih =>
    rw [List.map_cons, heeded, hv, List.any_cons, hv, ih, map_dropWhile_inRow]
    rfl
  | case4 p ps hv =>
    rw [List.map_cons, heeded, hv, List.any_cons, hv]
    rfl
  | case5 p ps hv =>
    rw [List.map_cons, heeded, hv, List.any_cons, hv]
    rfl

end Judge

/-! ### The cells of a text -/

/-- The cell that characters begin with. -/
def Handing.read (k : Handing) (d : Dialect) (cs : List Scanned) : CellRead :=
  d.readCell k.stop CellBuffer.empty.whitespace cs

/-- A cell as it is handed over. -/
def CellRead.cell (p : CellRead) (k : Handing) (cs : List Scanned) : Cell :=
  CellBuffer.toCell { CellBuffer.empty.appendAll k.strategy p.kept with
    enclosed := p.enclosed
    rawBytes := p.stop - offsetOf k.stop cs } k.viewed k.encoding

/-- The cells that characters make up, the first of which stands in that row
and column.  No row begins at the end of the characters. -/
def Dialect.placedFrom (d : Dialect) (k : Handing) (row column : Nat) (cs : List Scanned) :
    List Placed :=
  if cs = [] ∧ column = 0 then []
  else
    let p := k.read d cs
    ⟨⟨row, column, p.cell k cs⟩, offsetOf k.stop p.rest⟩ ::
      match _h : p.ending with
      | .inputEnd => []
      | .terminator .separator => placedFrom p.dialect k row (column + 1) p.rest
      | .terminator .lineEnd => placedFrom p.dialect k (row + 1) 0 p.rest
termination_by cs.length
decreasing_by all_goals exact length_rest_lt _h

/-- The cells after one that stands in that row and column: its line goes on,
or else the next one begins. -/
def CellRead.placedAfter (p : CellRead) (k : Handing) (row column : Nat) : List Placed :=
  if p.ending = .terminator .separator then p.dialect.placedFrom k row (column + 1) p.rest
  else p.dialect.placedFrom k (row + 1) 0 p.rest

namespace Dialect

variable {d : Dialect} {k : Handing} {row column : Nat} {cs : List Scanned}

theorem placedFrom_nil : d.placedFrom k row 0 [] = [] := by
  rw [placedFrom, if_pos ⟨rfl, rfl⟩]

theorem placedFrom_of_ne (hne : ¬ (cs = [] ∧ column = 0)) :
    let p := k.read d cs
    d.placedFrom k row column cs =
      ⟨⟨row, column, p.cell k cs⟩, offsetOf k.stop p.rest⟩ :: p.placedAfter k row column := by
  rw [placedFrom, if_neg hne]
  dsimp only
  rw [CellRead.placedAfter]
  split
  · rename_i h
    rw [if_neg (by simp [h]), show (k.read d cs).rest = [] from rest_eq_nil h, placedFrom_nil]
  · rename_i h
    rw [if_pos h]
  · rename_i h
    rw [if_neg (by simp [h])]

/-- The rows of cells come in order. -/
theorem le_row_placedFrom : ∀ p ∈ d.placedFrom k row column cs, row ≤ p.handed.row := by
  fun_induction placedFrom d k row column cs with
  | case1 => simp
  | case2 d row column cs hne p separator lineEnd =>
    rw [List.forall_mem_cons]
    refine ⟨Nat.le_refl _, ?_⟩
    split
    · simp
    · rename_i h
      exact separator h
    · rename_i h
      exact fun q hq => Nat.le_of_succ_le (lineEnd h q hq)

theorem not_inRow_placedFrom : ∀ p ∈ d.placedFrom k (row + 1) column cs, ¬ p.inRow row := by
  intro p hp
  have hle := le_row_placedFrom p hp
  simp only [Placed.inRow, Handed.inRow, beq_iff_eq]
  omega

/-- No cell of the next row is dropped with this one. -/
theorem dropWhile_placedFrom :
    (d.placedFrom k (row + 1) column cs).dropWhile (Placed.inRow row) =
      d.placedFrom k (row + 1) column cs := by
  cases h : d.placedFrom k (row + 1) column cs with
  | nil => rfl
  | cons p ps => exact List.dropWhile_cons_of_neg (not_inRow_placedFrom p (h ▸ List.mem_cons_self ..))

theorem takeWhile_placedFrom :
    (d.placedFrom k (row + 1) column cs).takeWhile (Placed.inRow row) = [] := by
  cases h : d.placedFrom k (row + 1) column cs with
  | nil => rfl
  | cons p ps => exact List.takeWhile_cons_of_neg (not_inRow_placedFrom p (h ▸ List.mem_cons_self ..))

/-- The cells of a text that breaks off lie where they are reported to, unless
U+FFFD ends one. -/
theorem placedFrom_slip (hk : k.strategy ≠ .view) (h : Frays k.stop cs)
    (hcs : offsetOf k.stop cs + 1 ≠ k.stop) (hd : d.terminator? replacement = none) :
    d.placedFrom k row column (cs.map (Scanned.move (slip k.stop))) =
      d.placedFrom k row column cs := by
  -- On the characters to come, of which a terminator takes one.
  induction hn : cs.length using Nat.strongRecOn generalizing cs d row column with
  | _ n ih =>
    subst hn
    by_cases hne : cs = [] ∧ column = 0
    · rw [hne.1]
      rfl
    let p := k.read d cs
    have hwhole : p.Whole k.stop := whole_readCell h hd _
    have hmove : k.read d (cs.map (Scanned.move (slip k.stop))) = p.move (slip k.stop) :=
      d.readCell_slip ..
    have hcell : (p.move (slip k.stop)).cell k (cs.map (Scanned.move (slip k.stop))) =
        p.cell k cs := by
      rw [CellRead.cell, CellRead.move, CellBuffer.appendAll_move hk, offsetOf_slip, slip_of_ne hcs,
        slip_of_ne hwhole.stop_ne]
      rfl
    have hrest : offsetOf k.stop (p.move (slip k.stop)).rest = offsetOf k.stop p.rest :=
      (offsetOf_slip ..).trans (slip_of_ne hwhole.rest_ne)
    have hd' : p.dialect.terminator? replacement = none :=
      (learnsTo_readCell k.stop CellBuffer.empty.whitespace cs).terminator?_replacement hd
    have hafter : (p.move (slip k.stop)).placedAfter k row column = p.placedAfter k row column := by
      cases hend : p.ending with
      | inputEnd =>
        have hnil : p.rest = [] := rest_eq_nil hend
        rw [CellRead.placedAfter, CellRead.placedAfter, CellRead.move, hnil]
        rfl
      | terminator t =>
        have hlt : p.rest.length < cs.length := length_rest_lt hend
        rw [CellRead.placedAfter, CellRead.placedAfter, CellRead.move]
        dsimp only
        rw [ih _ hlt hwhole.frays hwhole.rest_ne hd' rfl,
          ih _ hlt hwhole.frays hwhole.rest_ne hd' rfl]
    rw [placedFrom_of_ne (by simpa using hne), placedFrom_of_ne hne, hmove, hcell, hrest, hafter]

end Dialect

/-! ### The reader -/

namespace Reader

/-- What becomes of a reader that reads the cell `p`, with which the characters
`cs` begin. -/
structure HasRead (r r' : Reader) (k : Handing) (cs : List Scanned) (p : CellRead) : Prop where
  faces : r'.Faces k.encoding k.stop p.rest
  dialect : r'.dialect = p.dialect
  learns : r.dialect.LearnsTo p.dialect
  viewed : r'.viewed = k.viewed
  strategy : r'.strategy = r.strategy
  clear : r'.buffer.clear = .empty
  cell : r.strategy = k.strategy → r'.cell = p.cell k cs
  phase : r'.phase = p.ending.phase
  handed : r'.handed = r.handed

/-- Nothing of an earlier cell matters to the one that is read. -/
theorem Faces.exists_hasRead {r : Reader} {k : Handing} {cs : List Scanned}
    (h : r.Faces k.encoding k.stop cs) (hviewed : r.viewed = k.viewed)
    (hclear : r.buffer.clear = .empty) (hs : r.strategy ≠ .view ∨ r.dialect.enclosing = .off) :
    let p := k.read r.dialect cs
    ∃ r', r.readCell = .ok p.ending r' ∧ HasRead r r' k cs p := by
  have hws : r.buffer.whitespace = CellBuffer.empty.whitespace := by
    rw [← hclear]
    rfl
  obtain ⟨chars, hread, hf⟩ := h.readCell hs
  have hlearns : r.dialect.LearnsTo _ := (learns_readCell hread :)
  rw [hws] at hread hf hlearns
  rw [hclear] at hread
  refine ⟨_, hread, ⟨hf.congr rfl rfl, rfl, hlearns, hviewed, rfl, ?_, fun hk => ?_, rfl, rfl⟩⟩
  · show CellBuffer.mk [] none 0 false (CellBuffer.appendAll ..).whitespace = _
    rw [CellBuffer.whitespace_appendAll]
    rfl
  · rw [Reader.cell, CellRead.cell, ← hk, ← hviewed, ← hf.encoding]
    rfl

/-- A reader between two cells, whether it keeps what it reads or passes over
it. -/
structure Poised (r : Reader) (d : Dialect) (k : Handing) (cs : List Scanned) : Prop where
  faces : r.Faces k.encoding k.stop cs
  dialect : r.dialect = d
  viewed : r.viewed = k.viewed
  keeps : r.strategy = k.strategy ∨ r.strategy = .discard
  /-- Nothing of an earlier cell matters. -/
  clear : r.buffer.clear = .empty
  decodes : k.strategy ≠ .raw
  serves : k.strategy ≠ .view ∨ d.enclosing = .off

/-- What a line comes to after a cell that does not stop it. -/
def afterCell (judge : Judge) (row column : Nat) (mode : LineMode) (ending : CellEnd) (r : Reader) :
    Attempt Reader Bool :=
  if ending = .terminator .separator then r.readCells judge row (column + 1) mode
  else .ok true (if mode = .skipping true then { r with phase := .stopped } else r)

/-- A line of `cs` has come to its end by itself, and `rest` is left. -/
def LineOver (r : Reader) (cs rest : List Scanned) : Prop :=
  r.phase = .inputEnd ∧ rest = [] ∨ r.phase = .lineEnd ∧ rest.length < cs.length

theorem LineOver.trans {r : Reader} {bs cs rest : List Scanned} (h : r.LineOver cs rest)
    (hlt : cs.length < bs.length) : r.LineOver bs rest :=
  h.imp_right fun ⟨hphase, hrest⟩ => ⟨hphase, Nat.lt_trans hrest hlt⟩

theorem lineOver_of_ending {r : Reader} {d : Dialect} {k : Handing} {cs : List Scanned}
    (hphase : r.phase = (k.read d cs).ending.phase)
    (hend : (k.read d cs).ending ≠ .terminator .separator) : r.LineOver cs (k.read d cs).rest := by
  cases h : (k.read d cs).ending with
  | inputEnd => exact .inl ⟨by rw [hphase, h]; rfl, Dialect.rest_eq_nil h⟩
  | terminator t =>
    cases t with
    | separator => exact absurd h hend
    | lineEnd => exact .inr ⟨by rw [hphase, h]; rfl, Dialect.length_rest_lt h⟩

namespace Poised

variable {r r' : Reader} {d : Dialect} {k : Handing} {cs : List Scanned} {row column : Nat}

theorem position (h : r.Poised d k cs) : r.position = offsetOf k.stop cs := h.faces.position

/-- Only these fields of a reader matter. -/
theorem congr (h : r.Poised d k cs) (hc : r'.chars = r.chars) (hd : r'.dialect = r.dialect)
    (hs : r'.strategy = r.strategy) (hb : r'.buffer = r.buffer) (hv : r'.viewed = r.viewed) :
    r'.Poised d k cs :=
  ⟨h.faces.congr hc hs, hd.trans h.dialect, hv.trans h.viewed, hs ▸ h.keeps, hb ▸ h.clear,
    h.decodes, h.serves⟩

/-- Strategies that decode can take turns. -/
theorem withStrategy (h : r.Poised d k cs) {s : Strategy} (hs : s = k.strategy ∨ s = .discard) :
    Poised { r with strategy := s } d k cs := by
  have hraw : ∀ t : Strategy, t = k.strategy ∨ t = .discard → t ≠ .raw := by
    rintro t (rfl | rfl)
    · exact h.decodes
    · exact Strategy.noConfusion
  exact ⟨h.faces.of_decoding (hraw _ h.keeps) (hraw _ hs), h.dialect, h.viewed, hs, h.clear,
    h.decodes, h.serves⟩

/-- One cell. -/
theorem readCell (h : r.Poised d k cs) :
    let p := k.read d cs
    ∃ r', r.readCell = .ok p.ending r' ∧ r'.Poised p.dialect k p.rest ∧
      r'.strategy = r.strategy ∧ (r.strategy = k.strategy → r'.cell = p.cell k cs) ∧
      r'.phase = p.ending.phase ∧ r'.handed = r.handed := by
  obtain ⟨hfaces, rfl, hviewed, hkeeps, hclear, hdecodes, hserves⟩ := h
  have hs : r.strategy ≠ .view ∨ r.dialect.enclosing = .off := by
    rcases hkeeps with hk | hk
    · rwa [hk]
    · rw [hk]
      exact .inl Strategy.noConfusion
  obtain ⟨r', hread, hr'⟩ := hfaces.exists_hasRead hviewed hclear hs
  refine ⟨r', hread, ⟨hr'.faces, hr'.dialect, hr'.viewed, hr'.strategy ▸ hkeeps, hr'.clear,
    hdecodes, ?_⟩, hr'.strategy, hr'.cell, hr'.phase, hr'.handed⟩
  exact hserves.imp_right hr'.learns.enclosing.off_iff.mpr

/-- There is a row unless there is nothing left. -/
theorem position_ne {d' : Dialect} (h : r.Poised d k cs) (hne : ¬ (cs = [] ∧ column = 0))
    (h' : r'.Poised d' k []) (hcolumn : column = 0) : r'.position ≠ r.position := by
  rw [h.position, h'.position]
  cases cs with
  | nil => exact absurd ⟨rfl, hcolumn⟩ hne
  | cons c cs => exact Nat.ne_of_gt (h.faces.gives.start_lt c (List.mem_cons_self ..))

/-- What a line comes to after a cell that is handed over. -/
theorem readCells_handing {judge : Judge} {ending : CellEnd} (mode : LineMode)
    (hread : r.readCell = .ok ending r')
    (hrow : ¬ (ending = .inputEnd ∧ column = 0 ∧ r'.position = r.position))
    (hmode : LineMode.ofVerdict (judge row column r'.cell) = mode) :
    let t := (r'.handOver row column).heed mode
    r.readCells judge row column .handing =
      if mode = .stopped then .ok true t else t.afterCell judge row column mode ending := by
  subst hmode
  rw [Reader.readCells, hread]
  dsimp only
  rw [if_neg hrow]
  rfl

/-- What a line comes to after a cell that is passed over. -/
theorem readCells_skipping {judge : Judge} {ending : CellEnd} (thenStop : Bool)
    (hread : r.readCell = .ok ending r') (hcolumn : column ≠ 0) :
    r.readCells judge row column (.skipping thenStop) =
      r'.afterCell judge row column (.skipping thenStop) ending := by
  rw [Reader.readCells, hread]
  dsimp only
  rw [if_neg fun hcond => hcolumn hcond.2.1]
  rfl

/-- The rest of a line is passed over, to its end. -/
theorem afterCell_skipping (h : r.Poised (k.read d cs).dialect k (k.read d cs).rest)
    (hphase : r.phase = (k.read d cs).ending.phase) (judge : Judge) (row column : Nat)
    (thenStop : Bool) :
    let p := k.read d cs
    let ps := p.placedAfter k row column
    ∃ r' d' rest, r.afterCell judge row column (.skipping thenStop) p.ending = .ok true r' ∧
      r'.Poised d' k rest ∧ r'.handed = r.handed ∧
      (if thenStop then r'.phase = .stopped else r'.LineOver cs rest) ∧
      ps.dropWhile (Placed.inRow row) = d'.placedFrom k (row + 1) 0 rest ∧
      ∀ q : Placed, q.next = offsetOf k.stop p.rest →
        ((ps.takeWhile (Placed.inRow row)).getLastD q).next = offsetOf k.stop rest := by
  -- On the characters to come, of which a separator takes one.
  induction hn : cs.length using Nat.strongRecOn generalizing cs r d column with
  | _ n ih =>
    subst hn
    dsimp only
    rw [afterCell, CellRead.placedAfter]
    by_cases hend : (k.read d cs).ending = .terminator .separator
    · rw [if_pos hend, if_pos hend]
      have hlt := Dialect.length_rest_lt hend
      have hin : ∀ (cell : Cell) (next : Nat),
          Placed.inRow row ⟨⟨row, column + 1, cell⟩, next⟩ = true := fun _ _ => beq_self_eq_true row
      obtain ⟨r', hread, hr', -, -, hphase', hhanded⟩ := h.readCell
      rw [readCells_skipping thenStop hread (Nat.succ_ne_zero column),
        Dialect.placedFrom_of_ne (by simp), List.dropWhile_cons_of_pos (hin _ _),
        List.takeWhile_cons_of_pos (hin _ _)]
      obtain ⟨r'', d', rest, hcells, hr'', hhanded', hover, hdrop, hlast⟩ :=
        ih _ hlt hr' hphase' (column + 1) rfl
      refine ⟨r'', d', rest, hcells, hr'', hhanded'.trans hhanded, ?_, hdrop, fun q _ => ?_⟩
      · cases thenStop with
        | true => exact hover
        | false => exact hover.trans hlt
      · rw [List.getLastD_cons]
        exact hlast _ rfl
    · rw [if_neg hend, if_neg hend, Dialect.dropWhile_placedFrom, Dialect.takeWhile_placedFrom]
      cases thenStop with
      | true => exact ⟨_, _, _, rfl, h.congr rfl rfl rfl rfl rfl, rfl, rfl, rfl, fun q hq => hq⟩
      | false => exact ⟨_, _, _, rfl, h, rfl, lineOver_of_ending hphase hend, rfl, fun q hq => hq⟩

/-- A line is read as the verdicts on its cells allow: they stop the read in
it, or it comes to its end. -/
theorem readCells_heeded (h : r.Poised d k cs) (hk : r.strategy = k.strategy) (judge : Judge)
    (row column : Nat) (hne : ¬ (cs = [] ∧ column = 0)) :
    let ps := d.placedFrom k row column cs
    ∃ r' front, r.readCells judge row column .handing = .ok true r' ∧
      r'.handed = front.reverse ++ r.handed ∧ front ≠ [] ∧ (∀ g ∈ front, g.row = row) ∧
      (r'.phase = .stopped ∧ judge.heeded (ps.map Placed.handed) = front ∧
          judge.stopsAt ps = some r'.position ∨
        ∃ d' rest, r'.Poised d' k rest ∧ r'.LineOver cs rest ∧
          judge.heeded (ps.map Placed.handed) =
            front ++ judge.heeded ((d'.placedFrom k (row + 1) 0 rest).map Placed.handed) ∧
          judge.stopsAt ps = judge.stopsAt (d'.placedFrom k (row + 1) 0 rest)) := by
  -- On the characters to come, of which a separator takes one.
  induction hn : cs.length using Nat.strongRecOn generalizing cs r d column with
  | _ n ih =>
    subst hn
    obtain ⟨r', hread, hr', hs', hcell, hphase, hhanded⟩ := h.readCell
    have hrow : ¬ ((k.read d cs).ending = .inputEnd ∧ column = 0 ∧ r'.position = r.position) := by
      rintro ⟨hend, hcolumn, hposition⟩
      rw [show (k.read d cs).rest = [] from Dialect.rest_eq_nil hend] at hr'
      exact h.position_ne hne hr' hcolumn hposition
    let g : Handed := ⟨row, column, (k.read d cs).cell k cs⟩
    have hover : (r'.handOver row column).Poised (k.read d cs).dialect k (k.read d cs).rest :=
      hr'.congr rfl rfl rfl rfl rfl
    have hg : (r'.handOver row column).handed = g :: r.handed := by
      rw [Reader.handOver, hcell hk, hhanded]
    have hmode {v : Verdict} (hv : judge.on g = v) :
        LineMode.ofVerdict (judge row column r'.cell) = .ofVerdict v := by
      rw [hcell hk]
      exact congrArg LineMode.ofVerdict hv
    intro ps
    rw [show ps = d.placedFrom k row column cs from rfl, Dialect.placedFrom_of_ne hne,
      List.map_cons, Judge.heeded, Judge.stopsAt]
    cases hv : judge.on g with
    | stop =>
      rw [readCells_handing .stopped hread hrow (hmode hv), if_pos rfl]
      exact ⟨_, [g], rfl, hg, by simp, by simp [g], .inl ⟨rfl, rfl, congrArg some hover.position.symm⟩⟩
    | proceed =>
      rw [readCells_handing .handing hread hrow (hmode hv), if_neg (by simp)]
      dsimp only
      rw [afterCell, CellRead.placedAfter]
      by_cases hend : (k.read d cs).ending = .terminator .separator
      · rw [if_pos hend, if_pos hend]
        have hlt := Dialect.length_rest_lt hend
        obtain ⟨r'', front, hcells, hhanded', -, hrows, hleft⟩ :=
          ih _ hlt hover (hs'.trans hk) (column + 1) (by simp) rfl
        refine ⟨r'', g :: front, hcells, ?_, by simp, by simpa [g] using hrows, ?_⟩
        · rw [hhanded', hg, List.reverse_cons, List.append_assoc, List.singleton_append]
        · rcases hleft with ⟨hphase', hheeded, hstops⟩ | ⟨d', rest, hr'', hover', hheeded, hstops⟩
          · exact .inl ⟨hphase', congrArg (g :: ·) hheeded, hstops⟩
          · exact .inr ⟨d', rest, hr'', hover'.trans hlt, congrArg (g :: ·) hheeded, hstops⟩
      · rw [if_neg hend, if_neg hend]
        exact ⟨_, [g], rfl, hg, by simp, by simp [g],
          .inr ⟨_, _, hover, lineOver_of_ending hphase hend, rfl, rfl⟩⟩
    | skipLine =>
      rw [readCells_handing (.skipping false) hread hrow (hmode hv), if_neg (by simp)]
      obtain ⟨r'', d', rest, hcells, hr'', hhanded', hline, hdrop, -⟩ :=
        (hover.withStrategy (.inr rfl)).afterCell_skipping hphase judge row column false
      refine ⟨r'', [g], hcells, hhanded'.trans hg, by simp, by simp [g],
        .inr ⟨d', rest, hr'', hline, ?_, congrArg judge.stopsAt hdrop⟩⟩
      rw [← Judge.map_dropWhile_inRow, hdrop]
      rfl
    | skipLineThenStop =>
      rw [readCells_handing (.skipping true) hread hrow (hmode hv), if_neg (by simp)]
      obtain ⟨r'', d', rest, hcells, hr'', hhanded', hstopped, -, hlast⟩ :=
        (hover.withStrategy (.inr rfl)).afterCell_skipping hphase judge row column true
      refine ⟨r'', [g], hcells, hhanded'.trans hg, by simp, by simp [g], .inl ⟨hstopped, rfl, ?_⟩⟩
      rw [hr''.position]
      exact congrArg some (hlast _ rfl)

/-- Nothing is read where nothing is left. -/
theorem readCells_nil (h : r.Poised d k []) (judge : Judge) (row : Nat) :
    ∃ r', r.readCells judge row 0 .handing = .ok false r' ∧ r'.phase = .inputEnd ∧
      r'.position = k.stop ∧ r'.handed = r.handed := by
  obtain ⟨r', hread, hr', -, -, hphase, hhanded⟩ := h.readCell
  rw [Handing.read, Dialect.readCell_nil] at hread hr' hphase
  have hposition : r'.position = r.position := hr'.position.trans h.position.symm
  refine ⟨r', ?_, hphase, hr'.position, hhanded⟩
  rw [Reader.readCells, hread]
  exact if_pos ⟨rfl, rfl, hposition⟩

/-- A text is read as the verdicts on its cells allow: they stop the read, or
it comes to the end of the text.  Rows are counted from which a cell was
handed over. -/
theorem readRows_heeded (h : r.Poised d k cs) (hk : r.strategy = k.strategy)
    (hp : r.phase.isFinal = false) (judge : Judge) (row : Nat) :
    let ps := d.placedFrom k row 0 cs
    let handed := judge.heeded (ps.map Placed.handed)
    ∃ rows r', r.readRows judge row = .ok rows r' ∧ r'.handed = handed.reverse ++ r.handed ∧
      (r'.phase = .stopped ∧ judge.stopsAt ps = some r'.position ∨
        r'.phase = .inputEnd ∧ judge.stopsAt ps = none ∧ r'.position = k.stop) ∧
      row ≤ rows ∧ (handed.map Handed.row).toFinset = Finset.Ico row rows := by
  induction hn : cs.length using Nat.strongRecOn generalizing cs r d row with
  | _ n ih =>
    subst hn
    rw [Reader.readRows, if_neg (by simp [hp]), Reader.readRow]
    by_cases hcs : cs = []
    · subst hcs
      obtain ⟨r', hcells, hphase, hposition, hhanded⟩ := h.readCells_nil judge row
      rw [hcells]
      dsimp only
      rw [Reader.readRows, Dialect.placedFrom_nil, List.map_nil, Judge.heeded, Judge.stopsAt]
      refine ⟨row, _, if_pos ?_, hhanded, .inr ⟨hphase, rfl, hposition⟩, Nat.le_refl _, by simp⟩
      show r'.phase.isFinal
      rw [hphase]
      rfl
    · obtain ⟨r', front, hcells, hhanded, hfront, hrows, hline⟩ :=
        h.readCells_heeded hk judge row 0 fun hcond => hcs hcond.1
      have hone : (front.map Handed.row).toFinset = {row} := by
        obtain ⟨g, gs, rfl⟩ := List.exists_cons_of_ne_nil hfront
        ext n
        simp only [List.mem_toFinset, List.mem_map, Finset.mem_singleton]
        constructor
        · rintro ⟨f, hf, rfl⟩
          exact hrows f hf
        · rintro rfl
          exact ⟨g, by simp, hrows g (by simp)⟩
      rw [hcells]
      dsimp only
      rw [if_pos rfl]
      let t := ({ r' with strategy := r.strategy } : Reader).account
      rcases hline with ⟨hphase, hheeded, hstops⟩ | ⟨d', rest, hr', hline, hheeded, hstops⟩
      · -- A verdict stopped the read in this row.
        have hfinal : t.phase.isFinal := by
          show r'.phase.isFinal
          rw [hphase]
          rfl
        rw [Reader.readRows, hheeded]
        refine ⟨row + 1, t, if_pos hfinal, hhanded, .inl ⟨hphase, hstops⟩, Nat.le_succ row, ?_⟩
        rw [hone, Nat.Ico_succ_singleton]
      · have ht : t.Poised d' k rest :=
          (hr'.withStrategy (.inl hk)).congr rfl rfl rfl rfl rfl
        have hunion : ∀ rows, row + 1 ≤ rows →
            ({row} : Finset Nat) ∪ Finset.Ico (row + 1) rows = Finset.Ico row rows := by
          intro rows hle
          ext n
          simp only [Finset.mem_union, Finset.mem_singleton, Finset.mem_Ico]
          omega
        rw [hheeded, hstops, List.map_append, List.toFinset_append, hone]
        rcases hline with ⟨hphase, rfl⟩ | ⟨hphase, hlt⟩
        · -- The row was the last.
          have hfinal : t.phase.isFinal := by
            show r'.phase.isFinal
            rw [hphase]
            rfl
          rw [Reader.readRows, Dialect.placedFrom_nil, List.map_nil, Judge.heeded, Judge.stopsAt,
            List.append_nil]
          refine ⟨row + 1, t, if_pos hfinal, hhanded, .inr ⟨hphase, rfl, ht.position⟩,
            Nat.le_succ row, ?_⟩
          rw [← hunion (row + 1) (Nat.le_refl _), Finset.Ico_self]
          rfl
        · have hgoes : t.phase.isFinal = false := by
            show r'.phase.isFinal = false
            rw [hphase]
            rfl
          obtain ⟨rows, r'', hread, hhanded', hend, hle, hrows'⟩ :=
            ih rest.length hlt ht hk hgoes (row + 1) rfl
          refine ⟨rows, r'', hread, ?_, hend, Nat.le_of_succ_le hle, ?_⟩
          · rw [hhanded', List.reverse_append, List.append_assoc, ← hhanded]
            rfl
          · rw [hrows', hunion rows hle]

/-- What comes out of a text is what the verdicts on its cells leave of it. -/
theorem outcome_heeded (h : r.Poised d k cs) (hk : r.strategy = k.strategy)
    (hp : r.phase.isFinal = false) (hr : r.handed = []) (judge : Judge) :
    let ps := d.placedFrom k 0 0 cs
    ∃ s, (r.outcome judge).result = .ok s ∧
      (r.outcome judge).handed = judge.heeded (ps.map Placed.handed) ∧
      s.stopped = (judge.stopsAt ps).isSome ∧
      s.rows = ((r.outcome judge).handed.map Handed.row).toFinset.card ∧
      s.bytesRead = (judge.stopsAt ps).getD k.stop := by
  intro ps
  obtain ⟨rows, r', hrows, hhanded, hend, -, hcount⟩ := h.readRows_heeded hk hp judge 0
  have houtcome : r.outcome judge = ⟨judge.heeded (ps.map Placed.handed), .ok (r'.summary rows),
      r'.progress⟩ := by
    rw [Reader.outcome, Reader.read, hrows]
    dsimp only
    rw [hhanded, hr, List.append_nil, List.reverse_reverse]
  rw [houtcome]
  refine ⟨r'.summary rows, rfl, rfl, ?_, ?_, ?_⟩
  · show (r'.phase == .stopped) = _
    rcases hend with ⟨hphase, hstops⟩ | ⟨hphase, hstops, -⟩ <;>
    · rw [hphase, hstops]
      rfl
  · show rows = _
    rw [hcount, Nat.card_Ico, Nat.sub_zero]
  · show r'.position = _
    rcases hend with ⟨-, hstops⟩ | ⟨-, hstops, hposition⟩
    · rw [hstops]
      rfl
    · rw [hstops, hposition]
      rfl

end Poised

end Reader

/-- A strategy that keeps views serves no format with quotes. -/
theorem Strategy.serves_of_check {s : Strategy} {f : Format} {e : Encoding} {inMemory : Bool}
    (h : s.check f e inMemory = .ok ()) : s ≠ .view ∨ f.enclosing = .off := by
  by_contra hcond
  obtain ⟨hview, hoff⟩ := not_or.mp hcond
  rw [check, if_neg hview, if_pos hoff] at h
  split at h <;> exact absurd h (by simp)

theorem Strategy.isSingleByte_of_check {f : Format} {e : Encoding} {inMemory : Bool}
    (h : Strategy.view.check f e inMemory = .ok ()) : e.isSingleByte := by
  rw [check] at h
  split_ifs at h with hne _ _ hwide
  · exact absurd rfl hne
  · simpa using hwide

/-- Whether a text ends within a unit that was to complete a character. -/
def Format.BreaksOff (f : Format) (bytes : List UInt8) : Prop :=
  let (e, start) := f.encoding.resolve (bytes.take 4)
  e.BreaksOff (bytes.drop start)

/-- The cells of a text in memory, where they lie in it. -/
def Format.placed (f : Format) (o : ReadOptions) (bytes : List UInt8) : List Placed :=
  let (e, start) := f.encoding.resolve (bytes.take 4)
  f.toDialect.placedFrom ⟨o.strategy.getD .decode, e, bytes, bytes.length⟩ 0 0
    (e.layOut start (bytes.drop start))

/-- A text in memory is read from its first cell on. -/
theorem Reader.exists_poised {bytes : List UInt8} {f : Format} {o : ReadOptions} {e : Encoding}
    {start : Nat} (hr : f.encoding.resolve (bytes.take 4) = (e, start))
    (hs : o.strategy ≠ some .raw) (hcheck : (o.strategy.getD .decode).check f e true = .ok ()) :
    ∃ chars cs, ofBytes bytes f o = .ok (fresh chars f o bytes) ∧
      (fresh chars f o bytes).Poised f.toDialect
        ⟨o.strategy.getD .decode, e, bytes, bytes.length⟩ cs ∧
      (¬ f.BreaksOff bytes → cs = e.layOut start (bytes.drop start)) ∧
      (f.BreaksOff bytes →
        cs = (e.layOut start (bytes.drop start)).map (Scanned.move (slip bytes.length)) ∧
        Frays bytes.length (e.layOut start (bytes.drop start))) := by
  have hraw : o.strategy.getD .decode ≠ .raw := by
    cases hk : o.strategy with
    | none => exact Strategy.noConfusion
    | some s => exact fun heq => hs (hk.trans (congrArg some heq))
  have hstop : start + (bytes.drop start).length = bytes.length := by
    rw [List.length_drop, Nat.add_sub_cancel' (Encoding.start_le_of_resolve hr)]
  have hyields := Source.yields_advance bytes start
  rw [ofBytes_eq o hr, hcheck]
  generalize (Source.ofBytes bytes).advance start (bytes.drop start) = source at hyields ⊢
  obtain ⟨cs, hgives, hcs⟩ : ∃ cs, (Units.ofSource source e).Gives .decode bytes.length cs ∧
      (¬ f.BreaksOff bytes → cs = e.layOut start (bytes.drop start)) ∧
      (f.BreaksOff bytes →
        cs = (e.layOut start (bytes.drop start)).map (Scanned.move (slip bytes.length)) ∧
        Frays bytes.length (e.layOut start (bytes.drop start))) := by
    rw [Format.BreaksOff, hr]
    by_cases hbreak : e.BreaksOff (bytes.drop start)
    · obtain ⟨hgives, hfrays⟩ := Units.gives_slip hyields hbreak
      rw [hstop] at hgives hfrays
      exact ⟨_, hgives, fun h => absurd hbreak h, fun _ => ⟨rfl, hfrays⟩⟩
    · exact ⟨_, hstop ▸ Units.gives_layOut hyields hbreak, fun _ => rfl, fun h => absurd h hbreak⟩
  have hfaces : (fresh ⟨.ofSource source e, none⟩ f o bytes).Faces e bytes.length cs :=
    ⟨(Chars.gives_ofUnits hgives).of_decoding Strategy.noConfusion hraw, rfl⟩
  exact ⟨_, cs, rfl, ⟨hfaces, rfl, rfl, .inl rfl, rfl, hraw, Strategy.serves_of_check hcheck⟩, hcs⟩

/-- The cells that are read of a text lie where they are reported to, unless it
breaks off and U+FFFD ends one. -/
theorem Reader.exists_poised_placed {bytes : List UInt8} {f : Format} {o : ReadOptions}
    {e : Encoding} {start : Nat} (hr : f.encoding.resolve (bytes.take 4) = (e, start))
    (hs : o.strategy ≠ some .raw) (hcheck : (o.strategy.getD .decode).check f e true = .ok ()) :
    let k : Handing := ⟨o.strategy.getD .decode, e, bytes, bytes.length⟩
    ∃ chars cs, ofBytes bytes f o = .ok (fresh chars f o bytes) ∧
      (fresh chars f o bytes).Poised f.toDialect k cs ∧
      ((f.BreaksOff bytes → f.separator ≠ .char replacement ∧ f.lineEnd ≠ .char replacement) →
        f.toDialect.placedFrom k 0 0 cs = f.placed o bytes) := by
  intro k
  obtain ⟨chars, cs, hof, hpoised, hwhole, hslips⟩ := exists_poised hr hs hcheck
  refine ⟨chars, cs, hof, hpoised, fun hends => ?_⟩
  rw [Format.placed, hr]
  by_cases hbreak : f.BreaksOff bytes
  · obtain ⟨rfl, hfrays⟩ := hslips hbreak
    have hd := Dialect.terminator?_replacement_eq_none.mpr (hends hbreak)
    rw [Format.BreaksOff, hr] at hbreak
    have hstop : start + (bytes.drop start).length = bytes.length := by
      rw [List.length_drop, Nat.add_sub_cancel' (Encoding.start_le_of_resolve hr)]
    have hoffset := hbreak.offsetOf_ne start
    rw [hstop] at hoffset
    -- A view is only kept where a unit is a byte.
    have hview : k.strategy ≠ .view := by
      intro hview
      rw [show o.strategy.getD .decode = .view from hview] at hcheck
      have hone := Encoding.unitWidth_eq_one (Strategy.isSingleByte_of_check hcheck)
      exact hbreak.1 (hone ▸ Nat.one_dvd _)
    exact Dialect.placedFrom_slip hview hfrays hoffset hd
  · rw [hwhole hbreak]

/-- Verdicts only leave out.  Unless its strategy cannot serve the format, a
text that is read character by character hands over the cells that it would if
every verdict were to go on, but for those that the verdicts given leave out.
The read stops if a verdict says so, just after the cell or just after its
row.  Only in a text that breaks off, and where U+FFFD ends a cell, may another
offset be reported. -/
theorem readBytes_heeded {o : ReadOptions} (bytes : List UInt8) (f : Format) (judge : Judge)
    (hs : o.strategy ≠ some .raw) :
    let read := readBytes bytes f { o with characterwise := true }
    let checked := (o.strategy.getD .decode).check f (f.encoding.resolve (bytes.take 4)).1 true
    (∃ e, checked = .error e ∧ read judge = .failed e ∧ read .always = .failed e) ∨
    checked = .ok () ∧ ∃ s, (read judge).result = .ok s ∧
      (read judge).handed = judge.heeded (read .always).handed ∧
      s.stopped = (read judge).handed.any (fun h => (judge.on h).stops) ∧
      s.rows = ((read judge).handed.map Handed.row).toFinset.card ∧
      (s.stopped = false → s.bytesRead = bytes.length) ∧
      ((f.BreaksOff bytes → f.separator ≠ .char replacement ∧ f.lineEnd ≠ .char replacement) →
        (read .always).handed = (f.placed o bytes).map Placed.handed ∧
        s.bytesRead = (judge.stopsAt (f.placed o bytes)).getD bytes.length) := by
  intro read checked
  have hread : ∀ judge, read judge = .ofReader judge (Reader.ofBytes bytes f o) := fun _ => rfl
  obtain ⟨e, start, hr⟩ : ∃ e start, f.encoding.resolve (bytes.take 4) = (e, start) := ⟨_, _, rfl⟩
  have hchecked : checked = (o.strategy.getD .decode).check f e true := by
    rw [show checked = (o.strategy.getD .decode).check f
      (f.encoding.resolve (bytes.take 4)).1 true from rfl, hr]
  rw [hread, hread]
  cases hcheck : (o.strategy.getD .decode).check f e true with
  | error err =>
    rw [Reader.ofBytes_eq o hr, hcheck]
    exact .inl ⟨err, hchecked.trans hcheck, rfl, rfl⟩
  | ok u =>
    obtain ⟨chars, cs, hof, hpoised, hplaced⟩ := Reader.exists_poised_placed hr hs hcheck
    obtain ⟨s, hresult, hhanded, hstopped, hrows, hbytes⟩ :=
      hpoised.outcome_heeded rfl rfl rfl judge
    obtain ⟨-, -, hall, -⟩ := hpoised.outcome_heeded rfl rfl rfl .always
    rw [Judge.heeded_always] at hall
    have hheeded := hhanded.trans (congrArg judge.heeded hall.symm)
    rw [hof]
    refine .inr ⟨hchecked.trans hcheck, s, hresult, hheeded, ?_, hrows, fun hgoes => ?_,
      fun hends => ?_⟩
    · rw [hstopped, Judge.isSome_stopsAt, ← hhanded]
      rfl
    · rw [hstopped, Option.isSome_eq_false_iff, Option.isNone_iff_eq_none] at hgoes
      rw [hbytes, hgoes]
      rfl
    · rw [← hplaced hends]
      exact ⟨hall, hbytes⟩

/-- Two lines, of which the first is passed over after a cell and the second
stops the read, in a text of UTF-16 that breaks off. -/
theorem readBytes_heeded_lines :
    let bytes : List UInt8 := [0x61, 0x00, 0x2C, 0x00, 0x62, 0x00, 0x0A, 0x00, 0x63, 0x00, 0x2C, 0x00,
      0x3D, 0xD8, 0x41]
    let f : Format := { Format.csv with encoding := .utf16le }
    let judge : Judge := fun row _ _ => if row = 0 then .skipLine else .skipLineThenStop
    let read := readBytes bytes f { characterwise := true }
    ({} : ReadOptions).strategy ≠ some .raw ∧ f.BreaksOff bytes ∧
      f.separator ≠ .char replacement ∧ f.lineEnd ≠ .char replacement ∧
      ∃ s, (read judge).result = .ok s ∧ (read judge).handed = judge.heeded (read .always).handed ∧
        s.stopped = true ∧ s.rows = 2 ∧ s.bytesRead = 15 := by
  intro bytes f judge read
  have hbreak : f.BreaksOff bytes := by
    refine ⟨by decide, 0xD83D, 0xFFFD, .surrogate 0xD83D, ⟨[0x61, 0x2C, 0x62, 0x0A, 0x63, 0x2C], ?_⟩,
      rfl⟩
    decide +kernel
  have hstopped : (read judge).handed.any (fun h => (judge.on h).stops) = true := by decide +kernel
  have hrows : ((read judge).handed.map Handed.row).toFinset.card = 2 := by decide +kernel
  have hbytes : (judge.stopsAt (f.placed {} bytes)).getD bytes.length = 15 := by
    decide +kernel
  have hread := readBytes_heeded (o := {}) bytes f judge (by decide)
  obtain ⟨e, hchecked, -⟩ | ⟨-, s, hresult, hhanded, hs, hr, -, hb⟩ := hread
  · exact absurd (show Except.ok () = Except.error e from hchecked) (by simp)
  have hends : f.separator ≠ .char replacement ∧ f.lineEnd ≠ .char replacement := by decide
  exact ⟨by decide, hbreak, hends.1, hends.2, s, hresult, hhanded, hs.trans hstopped,
    hr.trans hrows, (hb fun _ => hends).2.trans hbytes⟩

/-- Where a text breaks off the offset that is reported may come before the
end of the separator. -/
example :
    let bytes : List UInt8 := [0x3D, 0xD8, 0x41]
    let f : Format := { Format.csv with separator := .char '\uFFFD', encoding := .utf16le }
    let judge : Judge := fun _ _ _ => .stop
    (readBytes bytes f { characterwise := true } judge).progress = 1 ∧
      judge.stopsAt (f.placed {} bytes) = some 2 := by
  decide +kernel

end Tabular
