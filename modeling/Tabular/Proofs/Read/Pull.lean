/-
Reading a text cell by cell.

* `Reader.pull` — the cells that a reader gives when it is asked for one after
  another, each with what ended it;
* `numbered` — where these stand in rows and columns;
* `Dialect.pulledFrom` — the cells that characters make up;
* `Reader.Between.pull`, `Reader.Between.readRows` — asked for cells or for
  rows, a reader gives just these;
* `Reader.Between.read` — the read to the end, and what is said of it;
* `Rows.addAll_placedLines` — and texts that are collected in rows are those of
  its lines;
* `Reader.read_eq_pull` — so it makes no difference which of the two is asked.

Design notes: lines are lists of cells here, which are placed by their number.
That leaves no room for gaps.
-/
import Tabular.Proofs.Read.Heed
import Tabular.Read.Rows

namespace Tabular

/-- A cell that was asked for. -/
structure Pulled where
  cell : Cell
  ending : CellEnd
  /-- How many bytes further on the reader is, after the terminator. -/
  taken : Nat

/-- Asks for one cell after another, until the input ends. -/
def Reader.pull (r : Reader) : Attempt Reader (List Pulled) :=
  match _h : r.readCell with
  | .error e r' => .error e r'
  | .ok .inputEnd r' => .ok [⟨r'.cell, .inputEnd, r'.position - r.position⟩] r'
  | .ok (.terminator t) r' =>
    match pull r' with
    | .error e r'' => .error e r''
    | .ok pulled r'' => .ok (⟨r'.cell, .terminator t, r'.position - r.position⟩ :: pulled) r''
termination_by r.left
decreasing_by exact (Reader.readCell_ok _h).2 (by simp)

/-- Cells where they stand, the first in that row and column: after a separator
comes the next column, and after a line end the next row.  The last is dropped
if a row would begin with it and it took no byte. -/
def numbered (row column : Nat) : List Pulled → List Handed
  | [] => []
  | [p] => if column = 0 ∧ p.taken = 0 then [] else [⟨row, column, p.cell⟩]
  | p :: q :: pulled =>
    ⟨row, column, p.cell⟩ ::
      if p.ending = .terminator .separator then numbered row (column + 1) (q :: pulled)
      else numbered (row + 1) 0 (q :: pulled)

/-- The cells of a line, from that column on. -/
def placedLine (row column : Nat) (line : List Cell) : List Handed :=
  (line.zipIdx column).map fun (cell, column) => ⟨row, column, cell⟩

/-- The cells of lines, from that row on. -/
def placedLines (row : Nat) (lines : List (List Cell)) : List Handed :=
  (lines.zipIdx row).flatMap fun (line, row) => placedLine row 0 line

theorem placedLine_cons (row column : Nat) (cell : Cell) (line : List Cell) :
    placedLine row column (cell :: line) =
      ⟨row, column, cell⟩ :: placedLine row (column + 1) line := rfl

theorem placedLines_cons (row : Nat) (line : List Cell) (lines : List (List Cell)) :
    placedLines row (line :: lines) = placedLine row 0 line ++ placedLines (row + 1) lines := rfl

/-! ### The cells of a text -/

namespace Dialect

/-- The cells that characters make up, the last of which the input ends. -/
def pulledFrom (d : Dialect) (k : Handing) (cs : List Scanned) : List Pulled :=
  let p := k.read d cs
  ⟨p.cell k cs, p.ending, offsetOf k.stop p.rest - offsetOf k.stop cs⟩ ::
    match _h : p.ending with
    | .inputEnd => []
    | .terminator _ => p.dialect.pulledFrom k p.rest
termination_by cs.length
decreasing_by exact length_rest_lt _h

variable {d : Dialect} {k : Handing} {cs : List Scanned} {row column : Nat}

theorem pulledFrom_inputEnd (h : (k.read d cs).ending = .inputEnd) :
    d.pulledFrom k cs = [⟨(k.read d cs).cell k cs, .inputEnd, k.stop - offsetOf k.stop cs⟩] := by
  have hrest : (k.read d cs).rest = [] := rest_eq_nil h
  rw [pulledFrom, hrest]
  split
  · rw [h]
    rfl
  · rename_i heq
    exact absurd (h.symm.trans heq) (by simp)

theorem pulledFrom_terminator {t : Terminator} (h : (k.read d cs).ending = .terminator t) :
    let p := k.read d cs
    d.pulledFrom k cs =
      ⟨p.cell k cs, .terminator t, offsetOf k.stop p.rest - offsetOf k.stop cs⟩ ::
        p.dialect.pulledFrom k p.rest := by
  rw [pulledFrom]
  dsimp only
  split
  · rename_i heq
    exact absurd (h.symm.trans heq) (by simp)
  · rw [h]

/-- What is known of the dialect after all the cells. -/
def after (d : Dialect) (k : Handing) (cs : List Scanned) : Dialect :=
  let p := k.read d cs
  match _h : p.ending with
  | .inputEnd => p.dialect
  | .terminator _ => p.dialect.after k p.rest
termination_by cs.length
decreasing_by exact length_rest_lt _h

@[simp] theorem after_nil : d.after k [] = d := by
  have hread : k.read d [] = ⟨[], false, .inputEnd, k.stop, d, []⟩ := readCell_nil ..
  rw [after]
  split
  · rw [hread]
  · rename_i heq
    rw [hread] at heq
    exact absurd heq (by simp)

/-- It is known after the first cell and those that come then. -/
theorem after_read : (k.read d cs).dialect.after k (k.read d cs).rest = d.after k cs := by
  conv_rhs => rw [after]
  split
  · rename_i heq
    rw [show (k.read d cs).rest = [] from rest_eq_nil heq, after_nil]
  · rfl

/-- The first cell, and those after its terminator. -/
theorem numbered_pulledFrom (hcs : column = 0 → ∀ c ∈ cs.head?, c.span.start < k.stop)
    (hne : ¬ (cs = [] ∧ column = 0)) :
    let p := k.read d cs
    numbered row column (d.pulledFrom k cs) =
      ⟨row, column, p.cell k cs⟩ ::
        match p.ending with
        | .inputEnd => []
        | .terminator .separator => numbered row (column + 1) (p.dialect.pulledFrom k p.rest)
        | .terminator .lineEnd => numbered (row + 1) 0 (p.dialect.pulledFrom k p.rest) := by
  dsimp only
  cases h : (k.read d cs).ending with
  | inputEnd =>
    have htaken : ¬ (column = 0 ∧ k.stop - offsetOf k.stop cs = 0) := by
      rintro ⟨hcolumn, hzero⟩
      cases cs with
      | nil => exact hne ⟨rfl, hcolumn⟩
      | cons c cs =>
        have hlt := hcs hcolumn c rfl
        rw [offsetOf] at hzero
        omega
    rw [pulledFrom_inputEnd h, numbered, if_neg htaken]
  | terminator t =>
    rw [pulledFrom_terminator h]
    obtain ⟨q, pulled, hnext⟩ : ∃ q pulled,
        (k.read d cs).dialect.pulledFrom k (k.read d cs).rest = q :: pulled := by
      rw [pulledFrom]
      exact ⟨_, _, rfl⟩
    rw [hnext, numbered]
    cases t <;> rfl

/-- No row begins at the end of the characters. -/
theorem numbered_pulledFrom_nil : numbered row 0 (d.pulledFrom k []) = [] := by
  have hend : (k.read d []).ending = .inputEnd := by rw [Handing.read, readCell_nil]
  rw [pulledFrom_inputEnd hend, numbered, offsetOf, Nat.sub_self]
  rfl

/-- A line goes on after a separator. -/
theorem numbered_pulledFrom_separator (hcs : column = 0 → ∀ c ∈ cs.head?, c.span.start < k.stop)
    (hne : ¬ (cs = [] ∧ column = 0)) (hend : (k.read d cs).ending = .terminator .separator) :
    let p := k.read d cs
    numbered row column (d.pulledFrom k cs) =
      ⟨row, column, p.cell k cs⟩ :: numbered row (column + 1) (p.dialect.pulledFrom k p.rest) := by
  rw [numbered_pulledFrom hcs hne, hend]

/-- Otherwise the next line begins. -/
theorem numbered_pulledFrom_over (hcs : column = 0 → ∀ c ∈ cs.head?, c.span.start < k.stop)
    (hne : ¬ (cs = [] ∧ column = 0)) (hend : (k.read d cs).ending ≠ .terminator .separator) :
    let p := k.read d cs
    numbered row column (d.pulledFrom k cs) =
      ⟨row, column, p.cell k cs⟩ :: numbered (row + 1) 0 (p.dialect.pulledFrom k p.rest) := by
  dsimp only
  rw [numbered_pulledFrom hcs hne]
  cases h : (k.read d cs).ending with
  | inputEnd => rw [show (k.read d cs).rest = [] from rest_eq_nil h, numbered_pulledFrom_nil]
  | terminator t =>
    cases t with
    | separator => exact absurd h hend
    | lineEnd => rfl

end Dialect

/-- What is said of a read to the end of the characters. -/
def Handing.summary (k : Handing) (known : Dialect) (rows : Nat) : Summary where
  rows := rows
  bytesRead := k.stop
  stopped := false
  separator := known.separator
  lineEnd := known.lineEnd
  encoding := k.encoding
  bytewise := false

/-! ### The reader -/

namespace Reader

/-- After a verdict that does not stop the read, the line does not stop it. -/
theorem present_goes_on {judge : Judge} (hj : ∀ row column cell, ¬ (judge row column cell).stops)
    {mode : LineMode} (hm : mode ≠ .stopped ∧ mode ≠ .skipping true) (row column : Nat)
    (r : Reader) :
    (r.present judge row column mode).1 ≠ .stopped ∧
      (r.present judge row column mode).1 ≠ .skipping true := by
  cases mode with
  | skipping | stopped => exact hm
  | handing =>
    have hv := hj row column r.cell
    rw [present]
    cases h : judge row column r.cell with
    | proceed | skipLine => exact ⟨LineMode.noConfusion, by simp [LineMode.ofVerdict]⟩
    | stop | skipLineThenStop => exact absurd (show (judge row column r.cell).stops by rw [h]; rfl) hv

theorem phase_readCells {judge : Judge} (hj : ∀ row column cell, ¬ (judge row column cell).stops)
    {row column : Nat} {mode : LineMode} {r r' : Reader} {found : Bool}
    (hm : mode ≠ .stopped ∧ mode ≠ .skipping true)
    (h : r.readCells judge row column mode = .ok found r') : r'.phase ≠ .stopped := by
  have hending : ∀ ending : CellEnd, ending.phase ≠ .stopped := by
    rintro ((_ | _) | _) <;> exact Phase.noConfusion
  fun_induction Reader.readCells judge row column mode r with
  | case1 => simp at h
  | case2 column mode r ending t ht he =>
    obtain ⟨-, rfl⟩ := EStateM.Result.ok.inj h
    rw [readCell_phase ht]
    exact hending _
  | case3 column mode r ending t ht he p hp => exact absurd hp (present_goes_on hj hm ..).1
  | case4 column mode r t p hp ht he ih => exact ih (present_goes_on hj hm ..) h
  | case5 column mode r ending t ht he p hp hs =>
    obtain ⟨-, rfl⟩ := EStateM.Result.ok.inj h
    rw [if_neg (present_goes_on hj hm ..).2, phase_present hp, readCell_phase ht]
    exact hending _

/-- Only a verdict stops a read. -/
theorem phase_readRows {judge : Judge} (hj : ∀ row column cell, ¬ (judge row column cell).stops)
    {row rows : Nat} {r r' : Reader} (hp : r.phase ≠ .stopped)
    (h : r.readRows judge row = .ok rows r') : r'.phase ≠ .stopped := by
  fun_induction Reader.readRows judge row r with
  | case1 row r hf =>
    obtain ⟨-, rfl⟩ := EStateM.Result.ok.inj h
    exact hp
  | case2 => simp at h
  | case3 row r hf found t ht ih =>
    refine ih ?_ h
    rw [readRow] at ht
    split at ht
    · exact absurd ht (by simp)
    · rename_i hcells
      obtain ⟨-, rfl⟩ := EStateM.Result.ok.inj ht
      exact (phase_readCells hj (by decide) hcells :)

/-- A reader between two cells, which keeps what it reads. -/
structure Between (r : Reader) (d : Dialect) (k : Handing) (cs : List Scanned) : Prop where
  faces : r.Faces k.encoding k.stop cs
  dialect : r.dialect = d
  viewed : r.viewed = k.viewed
  strategy : r.strategy = k.strategy
  /-- Nothing of an earlier cell matters. -/
  clear : r.buffer.clear = .empty
  serves : k.strategy ≠ .view ∨ d.enclosing = .off

namespace Between

variable {r r' : Reader} {d : Dialect} {k : Handing} {cs : List Scanned} {row column : Nat}

theorem position (h : r.Between d k cs) : r.position = offsetOf k.stop cs := h.faces.position

theorem head_lt (h : r.Between d k cs) : ∀ c ∈ cs.head?, c.span.start < k.stop :=
  fun c hc => h.faces.gives.start_lt c (List.mem_of_mem_head? hc)

/-- Only these fields of a reader matter. -/
theorem congr (h : r.Between d k cs) (hc : r'.chars = r.chars) (hd : r'.dialect = r.dialect)
    (hs : r'.strategy = r.strategy) (hb : r'.buffer = r.buffer) (hv : r'.viewed = r.viewed) :
    r'.Between d k cs :=
  ⟨h.faces.congr hc hs, hd.trans h.dialect, hv.trans h.viewed, hs.trans h.strategy, hb ▸ h.clear,
    h.serves⟩

/-- One cell. -/
theorem readCell (h : r.Between d k cs) :
    let p := k.read d cs
    ∃ r', r.readCell = .ok p.ending r' ∧ r'.Between p.dialect k p.rest ∧ r'.cell = p.cell k cs ∧
      r'.phase = p.ending.phase ∧ r'.handed = r.handed := by
  obtain ⟨hfaces, rfl, hviewed, hstrategy, hclear, hserves⟩ := h
  obtain ⟨r', hread, hr'⟩ := hfaces.exists_hasRead hviewed hclear (hstrategy ▸ hserves)
  refine ⟨r', hread, ⟨hr'.faces, hr'.dialect, hr'.viewed, hr'.strategy.trans hstrategy, hr'.clear,
    ?_⟩, hr'.cell hstrategy, hr'.phase, hr'.handed⟩
  exact hserves.imp_right hr'.learns.enclosing.off_iff.mpr

/-- There is a row unless there is nothing left. -/
theorem not_ended (h : r.Between d k cs)
    (hr' : r'.Between (k.read d cs).dialect k (k.read d cs).rest) (hne : ¬ (cs = [] ∧ column = 0)) :
    ¬ ((k.read d cs).ending = .inputEnd ∧ column = 0 ∧ r'.position = r.position) := by
  rintro ⟨hend, hcolumn, hsame⟩
  have hrest : (k.read d cs).rest = [] := Dialect.rest_eq_nil hend
  rw [hr'.position, h.position, hrest] at hsame
  cases cs with
  | nil => exact hne ⟨rfl, hcolumn⟩
  | cons c cs => exact Nat.ne_of_gt (h.faces.gives.start_lt c (List.mem_cons_self ..)) hsame

/-- Asked for one cell after another, the reader gives all of them. -/
theorem pull (h : r.Between d k cs) : ∃ r', r.pull = .ok (d.pulledFrom k cs) r' := by
  -- On the characters to come, of which a terminator takes one.
  induction hn : cs.length using Nat.strongRecOn generalizing cs r d with
  | _ n ih =>
    subst hn
    obtain ⟨r', hread, hr', hcell, -, -⟩ := h.readCell
    rw [Reader.pull]
    cases hend : (k.read d cs).ending with
    | inputEnd =>
      rw [hend] at hread
      have hrest : (k.read d cs).rest = [] := Dialect.rest_eq_nil hend
      refine ⟨r', ?_⟩
      rw [Dialect.pulledFrom_inputEnd hend, hread]
      dsimp only
      rw [hcell, hr'.position, hrest, h.position]
      rfl
    | terminator t =>
      rw [hend] at hread
      obtain ⟨r'', hpull⟩ := ih _ (Dialect.length_rest_lt hend) hr' rfl
      refine ⟨r'', ?_⟩
      rw [Dialect.pulledFrom_terminator hend, hread]
      dsimp only
      rw [hpull, hcell, hr'.position, h.position]

/-- A line has a cell, and comes to its end by itself. -/
theorem readCells (h : r.Between d k cs) (row column : Nat) (hne : ¬ (cs = [] ∧ column = 0)) :
    ∃ r' d' rest line, r.readCells .always row column .handing = .ok true r' ∧
      r'.Between d' k rest ∧ d'.after k rest = d.after k cs ∧ r'.LineOver cs rest ∧ line ≠ [] ∧
      r'.handed = (placedLine row column line).reverse ++ r.handed ∧
      numbered row column (d.pulledFrom k cs) =
        placedLine row column line ++ numbered (row + 1) 0 (d'.pulledFrom k rest) := by
  induction hn : cs.length using Nat.strongRecOn generalizing cs r d column with
  | _ n ih =>
    subst hn
    obtain ⟨r', hread, hr', hcell, hphase, hhanded⟩ := h.readCell
    have hrow := h.not_ended hr' hne
    have hover : (r'.handOver row column).Between (k.read d cs).dialect k (k.read d cs).rest :=
      hr'.congr rfl rfl rfl rfl rfl
    have hg : (r'.handOver row column).handed =
        [⟨row, column, (k.read d cs).cell k cs⟩] ++ r.handed :=
      congrArg₂ List.cons (congrArg (Handed.mk row column) hcell) hhanded
    rw [Poised.readCells_handing .handing hread hrow rfl, if_neg (by simp), afterCell]
    by_cases hend : (k.read d cs).ending = .terminator .separator
    · have hlt := Dialect.length_rest_lt hend
      obtain ⟨r'', d', rest, line, hcells, hr'', hafter, hline, -, hhanded', hnumbered⟩ :=
        ih _ hlt hover (column + 1) (by simp) rfl
      rw [if_pos hend, Dialect.numbered_pulledFrom_separator (fun _ => h.head_lt) hne hend]
      refine ⟨r'', d', rest, _ :: line, hcells, hr'', hafter.trans Dialect.after_read,
        hline.trans hlt, by simp, ?_, congrArg (_ :: ·) hnumbered⟩
      rw [hhanded', hg, placedLine_cons, List.reverse_cons, List.append_assoc]
    · rw [if_neg hend, Dialect.numbered_pulledFrom_over (fun _ => h.head_lt) hne hend]
      exact ⟨_, _, _, [(k.read d cs).cell k cs], rfl, hover, Dialect.after_read,
        lineOver_of_ending hphase hend, by simp, hg, rfl⟩

/-- There is no row where nothing is left. -/
theorem readRow_nil (h : r.Between d k []) (judge : Judge) (row : Nat) :
    ∃ r', r.readRow judge row = .ok false r' ∧ r'.Between d k [] ∧ r'.phase = .inputEnd ∧
      r'.handed = r.handed := by
  obtain ⟨r', hread, hr', -, hphase, hhanded⟩ := h.readCell
  rw [Handing.read, Dialect.readCell_nil] at hread hr' hphase
  have hcells : r.readCells judge row 0 .handing = .ok false r' := by
    rw [Reader.readCells, hread]
    exact if_pos ⟨rfl, rfl, hr'.position.trans h.position.symm⟩
  refine ⟨account { r' with strategy := r.strategy }, by rw [Reader.readRow, hcells], ?_, hphase,
    hhanded⟩
  exact hr'.congr rfl rfl (h.strategy.trans hr'.strategy.symm) rfl rfl

/-- A line of `cs` has been read as a row, the cells of which are those of
`line`, and some of them are handed over. -/
structure LineRead (r r' : Reader) (k : Handing) (left : Handed → Bool) (row : Nat) (d : Dialect)
    (cs : List Scanned) (d' : Dialect) (rest : List Scanned) (line : List Cell) : Prop where
  after : d'.after k rest = d.after k cs
  ended : r'.LineOver cs rest
  ne_nil : line ≠ []
  handed : r'.handed = ((placedLine row 0 line).filter left).reverse ++ r.handed
  numbered : numbered row 0 (d.pulledFrom k cs) =
    placedLine row 0 line ++ numbered (row + 1) 0 (d'.pulledFrom k rest)

/-- And the reader goes on with what is left. -/
structure RowRead (r r' : Reader) (k : Handing) (left : Handed → Bool) (row : Nat) (d : Dialect)
    (cs : List Scanned) (d' : Dialect) (rest : List Scanned) (line : List Cell) : Prop
    extends LineRead r r' k left row d cs d' rest line where
  between : r'.Between d' k rest

theorem readRow (h : r.Between d k cs) (hcs : cs ≠ []) (row : Nat) :
    ∃ r' d' rest line, r.readRow .always row = .ok true r' ∧
      RowRead r r' k (fun _ => true) row d cs d' rest line := by
  obtain ⟨r', d', rest, line, hcells, hr', hafter, hline, hne, hhanded, hnumbered⟩ :=
    h.readCells row 0 fun hcond => hcs hcond.1
  rw [Reader.readRow, hcells]
  refine ⟨_, d', rest, line, rfl, ⟨hafter, hline, hne, ?_, hnumbered⟩,
    hr'.congr rfl rfl (h.strategy.trans hr'.strategy.symm) rfl rfl⟩
  rw [List.filter_true]
  exact hhanded

/-- Where the input has ended, there are no more rows. -/
theorem readRows_inputEnd {judge : Judge} (row : Nat) (hphase : r.phase = .inputEnd) :
    r.readRows judge row = .ok row r := by
  rw [Reader.readRows]
  exact if_pos (by rw [hphase]; rfl)

/-- After a row come the others. -/
theorem readRows_readRow {judge : Judge} {found : Bool} (hp : r.phase.isFinal = false)
    (hread : r.readRow judge row = .ok found r') :
    r.readRows judge row = r'.readRows judge (if found then row + 1 else row) := by
  rw [Reader.readRows, if_neg (by simp [hp]), hread]

/-- Where the verdicts let rows be read one after another, all lines are.
What else there is to a row may be asked for as long as there are more. -/
theorem readRows_of_readRow {judge : Judge} {left : Handed → Bool}
    {motive : Reader → Dialect → List Scanned → Nat → Prop}
    (hrow : ∀ {r : Reader} {d : Dialect} {cs : List Scanned} {row : Nat}, r.Between d k cs →
      motive r d cs row → cs ≠ [] → ∃ r' d' rest line, r.readRow judge row = .ok true r' ∧
        RowRead r r' k left row d cs d' rest line ∧
        (r'.phase = .lineEnd → motive r' d' rest (row + 1)))
    (h : r.Between d k cs) (hp : r.phase.isFinal = false) (hm : motive r d cs row) :
    ∃ r' lines, r.readRows judge row = .ok (row + lines.length) r' ∧
      r'.Between (d.after k cs) k [] ∧ (∀ line ∈ lines, line ≠ []) ∧
      r'.handed = ((placedLines row lines).filter left).reverse ++ r.handed ∧
      numbered row 0 (d.pulledFrom k cs) = placedLines row lines := by
  -- On the characters to come, of which a line takes some.
  induction hn : cs.length using Nat.strongRecOn generalizing cs r d row with
  | _ n ih =>
    subst hn
    by_cases hcs : cs = []
    · subst hcs
      obtain ⟨r', hread, hr', hphase, hhanded⟩ := h.readRow_nil judge row
      rw [readRows_readRow hp hread, Dialect.numbered_pulledFrom_nil, Dialect.after_nil]
      exact ⟨r', [], readRows_inputEnd row hphase, hr', by simp, hhanded, rfl⟩
    · obtain ⟨t, d', rest, line, hread, ht, hgoes⟩ := hrow h hm hcs
      rw [readRows_readRow hp hread, if_pos rfl, ht.numbered, ← ht.after]
      rcases ht.ended with ⟨hphase, rfl⟩ | ⟨hphase, hlt⟩
      · -- The row was the last.
        rw [Dialect.numbered_pulledFrom_nil, Dialect.after_nil]
        refine ⟨t, [line], readRows_inputEnd _ hphase, ht.between, by simpa using ht.ne_nil, ?_, ?_⟩
        · rw [placedLines_cons]
          exact ht.handed.trans (by simp [placedLines])
        · rw [placedLines_cons]
          rfl
      · obtain ⟨r', lines, hread', hr', hlines, hhanded, hnumbered⟩ :=
          ih _ hlt ht.between (by rw [hphase]; rfl) (hgoes hphase) rfl
        refine ⟨r', line :: lines, ?_, hr', List.forall_mem_cons.mpr ⟨ht.ne_nil, hlines⟩, ?_, ?_⟩
        · rw [hread', List.length_cons, Nat.add_right_comm, Nat.add_assoc]
        · rw [hhanded, placedLines_cons, List.filter_append, List.reverse_append, List.append_assoc,
            ← ht.handed]
        · rw [hnumbered, placedLines_cons]

/-- Asked for rows, the reader hands over the same cells, line by line. -/
theorem readRows (h : r.Between d k cs) (hp : r.phase.isFinal = false) (row : Nat) :
    ∃ r' lines, r.readRows .always row = .ok (row + lines.length) r' ∧
      r'.Between (d.after k cs) k [] ∧ (∀ line ∈ lines, line ≠ []) ∧
      r'.handed = (placedLines row lines).reverse ++ r.handed ∧
      numbered row 0 (d.pulledFrom k cs) = placedLines row lines := by
  have hrow : ∀ {r : Reader} {d : Dialect} {cs : List Scanned} {row : Nat}, r.Between d k cs →
      True → cs ≠ [] → ∃ r' d' rest line, r.readRow .always row = .ok true r' ∧
        RowRead r r' k (fun _ => true) row d cs d' rest line ∧ (r'.phase = .lineEnd → True) := by
    intro r d cs row h _ hcs
    obtain ⟨r', d', rest, line, hread, hr'⟩ := h.readRow hcs row
    exact ⟨r', d', rest, line, hread, hr', fun _ => trivial⟩
  obtain ⟨r', lines, hread, hr', hlines, hhanded, hnumbered⟩ :=
    readRows_of_readRow hrow h hp trivial
  rw [List.filter_true] at hhanded
  exact ⟨r', lines, hread, hr', hlines, hhanded, hnumbered⟩

/-- What is said of rows that no verdict stopped. -/
theorem read_of_readRows {judge : Judge} {rows : Nat}
    (hj : ∀ row column cell, ¬ (judge row column cell).stops) (hp : r.phase.isFinal = false)
    (hread : r.readRows judge 0 = .ok rows r') (hr' : r'.Between d k []) :
    r.read judge = .ok (k.summary d rows) r' := by
  have hne : r.phase ≠ .stopped := fun hstopped => by simp [hstopped, Phase.isFinal] at hp
  have hphase : (r'.phase == .stopped) = false := by
    rw [beq_eq_false_iff_ne]
    exact phase_readRows hj hne hread
  rw [Reader.read, hread]
  dsimp only
  rw [Reader.summary, hr'.position, hphase, hr'.dialect, hr'.faces.encoding]
  rfl

/-- What is read of characters to their end, and what is said of it. -/
theorem read (h : r.Between d k cs) (hp : r.phase.isFinal = false) (hh : r.handed = []) :
    ∃ r' lines, r.read .always = .ok (k.summary (d.after k cs) lines.length) r' ∧
      (∀ line ∈ lines, line ≠ []) ∧ r'.handed.reverse = placedLines 0 lines ∧
      numbered 0 0 (d.pulledFrom k cs) = placedLines 0 lines := by
  obtain ⟨r', lines, hread, hr', hlines, hhanded, hnumbered⟩ := h.readRows hp 0
  have hgoes : ∀ row column cell, ¬ (Judge.always row column cell).stops :=
    fun _ _ _ => Bool.false_ne_true
  rw [hh, List.append_nil] at hhanded
  rw [Nat.zero_add] at hread
  exact ⟨r', lines, read_of_readRows hgoes hp hread hr', hlines,
    by rw [hhanded, List.reverse_reverse], hnumbered⟩

end Between

end Reader

/-! ### Rows -/

namespace Rows

/-- A cell that goes to the end of the last row. -/
theorem add_push (rows : Rows) (texts : Array String) (cell : Cell) :
    add (rows.push texts) ⟨rows.size, texts.size, cell⟩ = rows.push (texts.push cell.text) := by
  have hpad : padded (rows.push texts) (rows.size + 1) #[] = rows.push texts := by
    simp [padded]
  have hpad' : padded texts texts.size "" = texts := by simp [padded]
  rw [add, hpad]
  refine Array.ext_getElem? fun i => ?_
  rw [Array.getElem?_modify, Array.getElem?_push, Array.getElem?_push]
  by_cases hi : i = rows.size
  · rw [if_pos hi.symm, if_pos hi, if_pos hi, Option.map_some, hpad']
  · rw [if_neg (Ne.symm hi), if_neg hi, if_neg hi]

/-- A cell that begins a row. -/
theorem add_size (rows : Rows) (cell : Cell) :
    add rows ⟨rows.size, 0, cell⟩ = rows.push #[cell.text] := by
  have hpad : padded rows (rows.size + 1) #[] = padded (rows.push #[]) (rows.size + 1) #[] := by
    simp [padded]
  have hadd := add_push rows #[] cell
  rw [add, ← hpad] at hadd
  exact hadd

theorem addAll_placedLine (rows : Rows) (texts : Array String) (line : List Cell) :
    addAll (rows.push texts) (placedLine rows.size texts.size line) =
      rows.push (texts ++ (line.map Cell.text).toArray) := by
  induction line generalizing texts with
  | nil => simp [addAll, placedLine]
  | cons cell line ih =>
    have hsize : texts.size + 1 = (texts.push cell.text).size := (Array.size_push _).symm
    rw [placedLine_cons, addAll, List.foldl_cons, ← addAll, add_push, hsize, ih]
    simp

/-- Each line becomes a row of its texts. -/
theorem addAll_placedLines (rows : Rows) {lines : List (List Cell)}
    (hlines : ∀ line ∈ lines, line ≠ []) :
    addAll rows (placedLines rows.size lines) =
      rows ++ (lines.map fun line => (line.map Cell.text).toArray).toArray := by
  induction lines generalizing rows with
  | nil => simp [addAll, placedLines]
  | cons line lines ih =>
    rw [List.forall_mem_cons] at hlines
    obtain ⟨cell, line, rfl⟩ := List.exists_cons_of_ne_nil hlines.1
    have hline : addAll rows (placedLine rows.size 0 (cell :: line)) =
        rows.push ((cell :: line).map Cell.text).toArray := by
      rw [placedLine_cons, addAll, List.foldl_cons, add_size, ← addAll]
      exact (addAll_placedLine rows #[cell.text] line).trans (by simp)
    have hsize : rows.size + 1 = (rows.push ((cell :: line).map Cell.text).toArray).size :=
      (Array.size_push _).symm
    rw [placedLines_cons, addAll, List.foldl_append, ← addAll, ← addAll, hline, hsize,
      ih _ hlines.2]
    simp

end Rows

/-! ### Readers that have read nothing -/

namespace Source

/-- A look ahead that succeeds takes nothing away. -/
theorem fill_ok {n : Nat} {script : List Delivery} {s s' : Source}
    (h : fill n script s = .ok () s') (hscript : s.feed.script = script) :
    s'.rest = s.rest ∧ s'.position = s.position ∧ s'.capacity = s.capacity ∧
      ∀ d ∈ s'.feed.script, d ∈ script := by
  induction script generalizing s with
  | nil =>
    rw [fill] at h
    split at h <;> obtain ⟨-, rfl⟩ := EStateM.Result.ok.inj h
    · exact ⟨rfl, rfl, rfl, by simp [hscript]⟩
    · exact ⟨s.rest_receive .., rfl, rfl, by simp [receive]⟩
  | cons d script ih =>
    by_cases hle : n ≤ s.unread.length
    · rw [fill_of_le hle] at h
      obtain ⟨-, rfl⟩ := EStateM.Result.ok.inj h
      exact ⟨rfl, rfl, rfl, by simp [hscript]⟩
    · cases d with
      | upTo count =>
        rw [fill, if_neg hle] at h
        dsimp only at h
        split at h
        · obtain ⟨-, rfl⟩ := EStateM.Result.ok.inj h
          exact ⟨s.rest_receive .., rfl, rfl, fun d hd => List.mem_cons_of_mem _ hd⟩
        · obtain ⟨hrest, hposition, hcapacity, hmem⟩ := ih h rfl
          exact ⟨hrest.trans (s.rest_receive ..), hposition, hcapacity,
            fun d hd => List.mem_cons_of_mem _ (hmem d hd)⟩
      | interrupted | failed reason =>
        rw [fill, if_neg hle] at h
        exact absurd h (by simp)

theorem Yields.of_peek {s s' : Source} {bytes head : List UInt8} {position n : Nat}
    (h : s.Yields bytes position) (hpeek : s.peek n = .ok head s') : s'.Yields bytes position := by
  rw [Source.peek] at hpeek
  split at hpeek
  · exact absurd hpeek (by simp)
  · rename_i t hfill
    obtain ⟨-, rfl⟩ := EStateM.Result.ok.inj hpeek
    obtain ⟨hrest, hposition, hcapacity, hmem⟩ := fill_ok hfill rfl
    refine ⟨⟨fun d hd => h.steady.script d (hmem d hd), ?_⟩, hrest.trans h.rest,
      hposition.trans h.position⟩
    rw [hcapacity, hrest]
    exact h.steady.room

end Source

namespace Reader

variable {source : Source} {bytes : List UInt8} {viewed : Option (List UInt8)} {f : Format}
  {o : ReadOptions} {r : Reader}

/-- A reader that has read nothing comes to the first cell. -/
theorem exists_between (hsource : source.Yields bytes 0) (hr : start source viewed f o = .ok r) :
    ∃ k cs, r.Between f.toDialect k cs ∧ r.phase = .seeking ∧ r.handed = [] := by
  rw [start] at hr
  cases hpeek : source.peek 4 with
  | error e t => simp [hpeek] at hr
  | ok head t =>
    have ht := hsource.of_peek hpeek
    obtain ⟨t', hskip, ht'⟩ := ht.skip (f.encoding.resolve head).2
    rw [hpeek] at hr
    dsimp only at hr
    rw [hskip] at hr
    dsimp only at hr
    cases hcheck : (o.strategy.getD .decode).check f (f.encoding.resolve head).1 viewed.isSome with
    | error e => simp [hcheck, bind, Except.bind] at hr
    | ok u =>
      rw [hcheck] at hr
      obtain rfl := Except.ok.inj hr
      let units := Units.ofSource t' (f.encoding.resolve head).1
      have hruns : units.Runs _ := ⟨⟨_, _, ht', rfl⟩, by simp [units, Units.ofSource]⟩
      obtain ⟨cs, hgives⟩ := hruns.exists_gives (o.strategy.getD .decode)
      exact ⟨⟨o.strategy.getD .decode, units.encoding, viewed.getD [], _⟩, cs,
        ⟨⟨Chars.gives_ofUnits hgives, rfl⟩, rfl, rfl, rfl, rfl, Strategy.serves_of_check hcheck⟩,
        rfl, rfl⟩

/-- A reader that has read nothing hands over the cells that it gives when it
is asked for one after another.  These fill lines without gaps, and it counts
the lines. -/
theorem read_eq_pull (hsource : source.Yields bytes 0) (hr : start source viewed f o = .ok r) :
    ∃ pulled r' s r'' lines, r.pull = .ok pulled r' ∧ r.read .always = .ok s r'' ∧
      r''.handed.reverse = numbered 0 0 pulled ∧ numbered 0 0 pulled = placedLines 0 lines ∧
      s.rows = lines.length ∧ (∀ line ∈ lines, line ≠ []) ∧
      Rows.addAll #[] r''.handed.reverse =
        (lines.map fun line => (line.map Cell.text).toArray).toArray := by
  obtain ⟨k, cs, hbetween, hphase, hhanded⟩ := exists_between hsource hr
  obtain ⟨r', hpull⟩ := hbetween.pull
  obtain ⟨r'', lines, hread, -, hlines, hhanded', hnumbered⟩ :=
    hbetween.readRows (by rw [hphase]; rfl) 0
  rw [hhanded, List.append_nil] at hhanded'
  have hsame : r''.handed.reverse = placedLines 0 lines := by
    rw [hhanded', List.reverse_reverse]
  refine ⟨_, r', r''.summary (0 + lines.length), r'', lines, hpull, ?_, hsame.trans hnumbered.symm,
    hnumbered, Nat.zero_add _, hlines, ?_⟩
  · rw [Reader.read, hread]
  · rw [hsame]
    exact (Rows.addAll_placedLines #[] hlines).trans (Array.empty_append ..)

/-- Two lines, of which the second is an empty cell in quotes; the empty cell
that is given at the end of the text is dropped. -/
theorem read_eq_pull_quotes :
    let bytes : List UInt8 := [0x61, 0x2C, 0x0A, 0x22, 0x22, 0x0A]
    (Source.ofBytes bytes).Yields bytes 0 ∧
    ∃ r pulled r' s r'', start (.ofBytes bytes) (some bytes) .csv {} = .ok r ∧
      r.pull = .ok pulled r' ∧ r.read .always = .ok s r'' ∧
      r''.handed.reverse = numbered 0 0 pulled ∧
      r''.handed.reverse.map Handed.entry = [(0, 0, "a"), (0, 1, ""), (1, 0, "")] := by
  intro bytes
  have hsource := Source.yields_ofBytes bytes
  have hentries : (Outcome.ofReader .always (start (.ofBytes bytes) (some bytes) .csv {})).handed.map
      Handed.entry = [(0, 0, "a"), (0, 1, ""), (1, 0, "")] := by decide +kernel
  cases hr : start (.ofBytes bytes) (some bytes) .csv {} with
  | error e =>
    rw [hr] at hentries
    exact absurd hentries (List.cons_ne_nil _ _).symm
  | ok r =>
    obtain ⟨pulled, r', s, r'', lines, hpull, hread, hsame, -⟩ := read_eq_pull hsource hr
    rw [hr, Outcome.ofReader, outcome, hread] at hentries
    exact ⟨hsource, r, pulled, r', s, r'', rfl, hpull, hread, hsame, hentries⟩

end Reader

end Tabular
