/-
How far a read goes, and how much of it is accounted for.

* `Reader.Underway` — a reader within the bytes of a text, whatever verdicts
  have been given;
* `Underway.readCell`, `Underway.readCells`, `Underway.readRows` — every row
  takes a byte, and where a read ends is where its account ends;
* `Bytewise.split_accounts` — the same of bytes that are split;
* `readBytes_progress` — and so of every text in memory.

Design notes: a reader that passes over the rest of a line reads characters in
another way than before, so where it is goes by the bytes and not by the
characters to come.
-/
import Tabular.Proofs.Read.Heed
import Tabular.Proofs.Read.Whole
import Tabular.Proofs.Read.Within

namespace Tabular

namespace Reader

/-- A reader within the bytes of a text, whose strategy is that one unless it
passes over the rest of a line. -/
structure Underway (r : Reader) (bytes : List UInt8) (s : Strategy) : Prop where
  within : r.chars.Within bytes
  strategy : r.strategy = s ∨ r.strategy = .discard
  serves : s ≠ .view ∨ r.dialect.enclosing = .off

/-- A reader whose account goes as far as it says. -/
structure Balanced (r : Reader) : Prop where
  progress : r.progress = r.accounted
  accounted_le : r.accounted ≤ r.position

/-- The account that was given is still that. -/
def SameAccount (r r' : Reader) : Prop := r'.progress = r.progress ∧ r'.accounted = r.accounted

theorem SameAccount.trans {r r' r'' : Reader} (h : SameAccount r r') (h' : SameAccount r' r'') :
    SameAccount r r'' := ⟨h'.1.trans h.1, h'.2.trans h.2⟩

namespace Underway

variable {r r' : Reader} {bytes : List UInt8} {s : Strategy} {row column : Nat} {mode : LineMode}

theorem position_le (h : r.Underway bytes s) : r.position ≤ bytes.length := h.within.position_le

theorem congr (h : r.Underway bytes s) (hc : r'.chars = r.chars)
    (hs : r'.strategy = s ∨ r'.strategy = .discard) (hd : r'.dialect = r.dialect) :
    r'.Underway bytes s :=
  ⟨hc ▸ h.within, hs, hd ▸ h.serves⟩

/-- What becomes of a reader that reads a cell: the cell takes a byte unless the
input ends it, and then the reader is at the end. -/
structure Took (r r' : Reader) (bytes : List UInt8) (s : Strategy) (ending : CellEnd) : Prop where
  underway : r'.Underway bytes s
  same : SameAccount r r'
  phase : r'.phase = ending.phase
  le : r.position ≤ r'.position
  lt : ending ≠ .inputEnd → r.position < r'.position
  ended : ending = .inputEnd → r'.position = bytes.length

/-- A cell with which a row begins takes a byte, or there is no row. -/
theorem Took.lt_of_row {ending : CellEnd} (h : Took r r' bytes s ending)
    (hrow : ¬ (ending = .inputEnd ∧ column = 0 ∧ r'.position = r.position)) (hcolumn : column = 0) :
    r.position < r'.position := by
  by_cases hend : ending = .inputEnd
  · exact Nat.lt_of_le_of_ne h.le fun heq => hrow ⟨hend, hcolumn, heq.symm⟩
  · exact h.lt hend

theorem readCell (h : r.Underway bytes s) :
    ∃ ending r', r.readCell = .ok ending r' ∧ Took r r' bytes s ending := by
  obtain ⟨cs, hgives⟩ := h.within.exists_gives r.strategy
  have hfaces : r.Faces r.encoding bytes.length cs := ⟨hgives, rfl⟩
  have hserves : r.strategy ≠ .view ∨ r.dialect.enclosing = .off := by
    rcases h.strategy with hs | hs
    · exact hs ▸ h.serves
    · exact .inl (by rw [hs]; exact Strategy.noConfusion)
  obtain ⟨chars, hread, hf⟩ := hfaces.readCell hserves
  have hlearns : r.dialect.LearnsTo _ := (learns_readCell hread :)
  obtain ⟨hwithin, hle, hleft⟩ := succeeds_readCell
    (Chars.keeps_within bytes r.position r.left) hread
    ⟨h.within, Nat.le_refl _, fun _ => Nat.le_refl _⟩
  refine ⟨_, _, hread, ⟨hwithin, h.strategy, ?_⟩, ⟨rfl, rfl⟩, rfl, hle, fun hend => ?_,
    fun hend => ?_⟩
  · exact h.serves.imp_right hlearns.enclosing.off_iff.mpr
  · have hlt : chars.left < r.left := (readCell_ok hread).2 hend
    refine Nat.lt_of_le_of_ne hle fun heq => ?_
    exact Nat.not_le_of_lt hlt (hleft heq.symm)
  · exact (hf.position.trans (by rw [Dialect.rest_eq_nil hend]) :)

theorem of_readCell {ending : CellEnd} (h : r.Underway bytes s)
    (hread : r.readCell = .ok ending r') : Took r r' bytes s ending := by
  obtain ⟨ending', r'', hread', htook⟩ := h.readCell
  obtain ⟨rfl, rfl⟩ := EStateM.Result.ok.inj (hread.symm.trans hread')
  exact htook

/-- Whatever the verdict on a cell, the reader is where it was. -/
theorem present (h : r.Underway bytes s) (judge : Judge) (row column : Nat) (mode : LineMode) :
    let p := r.present judge row column mode
    p.2.Underway bytes s ∧ SameAccount r p.2 ∧ p.2.position = r.position := by
  cases mode with
  | handing =>
    rw [Reader.present]
    dsimp only
    cases LineMode.ofVerdict (judge row column r.cell) with
    | handing | stopped => exact ⟨h.congr rfl h.strategy rfl, ⟨rfl, rfl⟩, rfl⟩
    | skipping thenStop => exact ⟨h.congr rfl (.inr rfl) rfl, ⟨rfl, rfl⟩, rfl⟩
  | skipping | stopped => exact ⟨h, ⟨rfl, rfl⟩, rfl⟩

/-- A row takes a byte.  Where the input ends the reader is at the end. -/
theorem readCells (h : r.Underway bytes s) (hm : mode ≠ .stopped) (judge : Judge)
    (row column : Nat) :
    ∃ found r', r.readCells judge row column mode = .ok found r' ∧ r'.Underway bytes s ∧
      SameAccount r r' ∧ r.position ≤ r'.position ∧
      (found → column = 0 → r.position < r'.position) ∧
      (r'.phase = .inputEnd → r'.position = bytes.length) := by
  fun_induction Reader.readCells judge row column mode r with
  | case1 column mode r e t ht =>
    obtain ⟨ending, t', hread, -⟩ := h.readCell
    exact absurd (ht.symm.trans hread) (by simp)
  | case2 column mode r ending t ht he =>
    have htook := h.of_readCell ht
    exact ⟨_, _, rfl, htook.underway, htook.same, htook.le,
      fun hfound => absurd hfound Bool.false_ne_true, fun _ => htook.ended he.1⟩
  | case3 column mode r ending t ht he p hp =>
    have htook := h.of_readCell ht
    obtain ⟨hunder, hsame, hposition⟩ := htook.underway.present judge row column mode
    refine ⟨_, _, rfl, hunder, htook.same.trans hsame, hposition ▸ htook.le, fun _ hcolumn => ?_,
      fun hphase => ?_⟩
    · rw [hposition]
      exact htook.lt_of_row he hcolumn
    · exact absurd (hphase.symm.trans (phase_present_stopped hm hp)) (by simp)
  | case4 column mode r t p hp ht he ih =>
    have htook := h.of_readCell ht
    obtain ⟨hunder, hsame, hposition⟩ := htook.underway.present judge row column mode
    obtain ⟨found, r', hcells, hr', hsame', hle, -, hstop⟩ := ih hunder hp
    -- A separator was read before the cells that follow.
    have hlt := htook.lt (by simp)
    rw [hposition] at hle
    exact ⟨found, r', hcells, hr', (htook.same.trans hsame).trans hsame', by omega,
      fun _ _ => by omega, hstop⟩
  | case5 column mode r ending t ht he p hp hs =>
    have htook := h.of_readCell ht
    obtain ⟨hunder, hsame, hposition⟩ := htook.underway.present judge row column mode
    have hle : r.position ≤ p.2.position := hposition ▸ htook.le
    have hrow : column = 0 → r.position < p.2.position := hposition ▸ htook.lt_of_row he
    have hphase : p.2.phase = ending.phase := (phase_present hp).trans htook.phase
    have hboth : SameAccount r p.2 := htook.same.trans hsame
    by_cases hthen : p.1 = .skipping true
    · rw [if_pos hthen]
      exact ⟨_, _, rfl, hunder.congr rfl hunder.strategy rfl, hboth, hle, fun _ => hrow,
        fun hstopped => absurd hstopped (by simp)⟩
    · rw [if_neg hthen]
      refine ⟨_, _, rfl, hunder, hboth, hle, fun _ => hrow, fun hend => ?_⟩
      rw [hphase] at hend
      rw [hposition]
      cases ending with
      | inputEnd => exact htook.ended rfl
      | terminator t => cases t <;> exact absurd hend (by simp [CellEnd.phase])

/-- A text has not more rows than bytes.  A read ends where its account ends,
which is at the end of the text unless a verdict has stopped it. -/
theorem readRows (h : r.Underway bytes s) (hs : r.strategy = s) (ha : r.Balanced)
    (hfinal : r.phase.isFinal → r.accounted = r.position)
    (hend : r.phase = .inputEnd → r.position = bytes.length) (judge : Judge) (row : Nat) :
    ∃ rows r', r.readRows judge row = .ok rows r' ∧ rows + r.position ≤ row + r'.position ∧
      r'.progress = r'.position ∧ r'.position ≤ bytes.length ∧
      (r'.phase ≠ .stopped → r'.position = bytes.length) := by
  fun_induction Reader.readRows judge row r with
  | case1 row r hf =>
    refine ⟨row, r, rfl, Nat.le_refl _, ha.progress.trans (hfinal hf), h.position_le, fun hne => ?_⟩
    refine hend ?_
    cases hp : r.phase with
    | inputEnd => rfl
    | stopped => exact absurd hp hne
    | seeking | naked | enclosed | afterEnclosed | separator | lineEnd =>
      rw [hp] at hf
      exact absurd hf Bool.false_ne_true
  | case2 row r hf e t ht =>
    obtain ⟨found, r', hcells, -⟩ :=
      h.readCells (by decide : LineMode.handing ≠ .stopped) judge row 0
    rw [readRow, hcells] at ht
    exact absurd ht (by simp)
  | case3 row r hf found t ht ih =>
    obtain ⟨found', r', hcells, hr', hsame, hle, hlt, hstop⟩ :=
      h.readCells (by decide : LineMode.handing ≠ .stopped) judge row 0
    rw [readRow, hcells] at ht
    obtain ⟨rfl, rfl⟩ := EStateM.Result.ok.inj ht
    have haccount : r'.progress + (r'.position - r'.accounted) = r'.position := by
      have := ha.accounted_le
      rw [hsame.1, hsame.2, ha.progress]
      omega
    obtain ⟨rows, r'', hrows, hcount, hprogress, hle', hstop'⟩ := ih
      (hr'.congr rfl (.inl hs) rfl) hs ⟨haccount, Nat.le_refl _⟩ (fun _ => rfl) hstop
    refine ⟨rows, r'', hrows, ?_, hprogress, hle', hstop'⟩
    have hcount : rows + r'.position ≤ (if found' then row + 1 else row) + r''.position := hcount
    cases found' with
    | true =>
      have := hlt rfl rfl
      rw [if_pos rfl] at hcount
      omega
    | false =>
      rw [if_neg Bool.false_ne_true] at hcount
      omega

end Underway

end Reader

/-! ### Bytes that are split -/

namespace Bytewise

/-- A split of `size` bytes, the first of which belong to the cell at `p`: a row
that begins there takes a byte, and so does every later one.  The split goes to
the end unless a verdict has stopped it. -/
structure Result.Accounts (result : Result) (p : Place) (size : Nat) : Prop where
  rows_le : result.rows + p.position ≤ p.row + (if p.column = 0 then 0 else 1) + result.bytesRead
  bytesRead_le : result.bytesRead ≤ p.position + size
  eq_of_goes_on : result.stopped = false → result.bytesRead = p.position + size

theorem split_accounts (d : Ends) (e : Encoding) (judge : Judge) (p : Place) (mode : LineMode)
    (handed : List Handed) (t : Tally) (bytes : List UInt8) :
    (split d e judge p mode handed t bytes).Accounts p bytes.length := by
  induction bytes using induction_cells d generalizing p mode handed t with
  | last rest hrest =>
    by_cases hnil : rest = [] ∧ p.column = 0
    · obtain ⟨row, column, position⟩ := p
      obtain ⟨rfl, rfl⟩ := hnil
      rw [split_nil]
      exact ⟨Nat.le_refl _, Nat.le_refl _, fun _ => rfl⟩
    · rw [split_end hrest hnil]
      refine ⟨?_, Nat.le_refl _, fun _ => rfl⟩
      dsimp only [Result.ended]
      split
      · rename_i hcolumn
        have hpos := List.length_pos_of_ne_nil fun hrest => hnil ⟨hrest, hcolumn⟩
        omega
      · omega
  | step run b rest hrun hb ih =>
    have hlen : (run ++ b :: rest).length = run.length + 1 + rest.length := by
      rw [List.length_append, List.length_cons]
      omega
    -- The cell and the byte that ends it, if the split stops there.
    have hstop : ∀ handed t, Result.Accounts
        (.ended (p.row + 1) (p.position + run.length + 1) true handed t) p
        (run ++ b :: rest).length := by
      refine fun _ _ => ⟨?_, ?_, fun h => absurd h (by simp [Result.ended])⟩
      · dsimp only [Result.ended]
        omega
      · dsimp only [Result.ended]
        omega
    rw [split_byte hrun hb]
    dsimp only
    generalize present judge p (cellAt e p.position (d.cellBytes run b)) mode handed = q
    split_ifs with hq hsep hthen
    · exact hstop ..
    · obtain ⟨hrows, hle, hend⟩ := ih ⟨p.row, p.column + 1, p.position + run.length + 1⟩ q.1 q.2 t
      rw [if_neg (Nat.succ_ne_zero _)] at hrows
      dsimp only at hrows hle hend
      exact ⟨by omega, by omega, fun h => by rw [hend h]; omega⟩
    · exact hstop ..
    · obtain ⟨hrows, hle, hend⟩ := ih ⟨p.row + 1, 0, p.position + run.length + 1⟩ .handing q.2
        (t.account (p.position + run.length + 1))
      rw [if_pos rfl] at hrows
      dsimp only at hrows hle hend
      exact ⟨by omega, by omega, fun h => by rw [hend h]; omega⟩

end Bytewise

/-! ### A text in memory -/

/-- A read from offset `start` on of bytes that end at offset `size`, and what
it says of itself: not more rows than bytes, an account of all that was read,
and nothing left to read unless a verdict has stopped it. -/
structure Outcome.Accounts (out : Outcome) (start size : Nat) (s : Summary) : Prop where
  result : out.result = .ok s
  rows_le : s.rows + start ≤ s.bytesRead
  progress : out.progress = s.bytesRead
  bytesRead_le : s.bytesRead ≤ size
  eq_of_goes_on : s.stopped = false → s.bytesRead = size

variable {bytes : List UInt8} {f : Format} {o : ReadOptions} {e : Encoding} {start : Nat}

/-- A text in memory is read from within its bytes. -/
theorem Reader.exists_within (hr : f.encoding.resolve (bytes.take 4) = (e, start))
    (hcheck : (o.strategy.getD .decode).check f e true = .ok ()) :
    ∃ units, ofBytes bytes f o = .ok (fresh ⟨units, none⟩ f o bytes) ∧ units.Within bytes ∧
      units.encoding = e ∧ units.position = start := by
  have hyields := Source.yields_advance bytes start
  refine ⟨.ofSource ((Source.ofBytes bytes).advance start (bytes.drop start)) e, ?_,
    .ofSource e hyields (Encoding.start_le_of_resolve hr), rfl, hyields.position⟩
  rw [ofBytes_eq o hr, hcheck]
  rfl

/-- The account of a reader of characters. -/
theorem Reader.outcome_accounts (hr : f.encoding.resolve (bytes.take 4) = (e, start))
    (hcheck : (o.strategy.getD .decode).check f e true = .ok ()) (judge : Judge) :
    ∃ s, (Outcome.ofReader judge (ofBytes bytes f o)).Accounts start bytes.length s := by
  obtain ⟨units, hof, hwithin, -, hposition⟩ := exists_within hr hcheck
  let r := fresh ⟨units, none⟩ f o bytes
  have hunder : r.Underway bytes r.strategy :=
    ⟨⟨hwithin, by simp [r, fresh]⟩, .inl rfl, Strategy.serves_of_check hcheck⟩
  have hstart : r.position = start := hposition
  obtain ⟨rows, r', hread, hrows, hprogress, hle, hend⟩ :=
    hunder.readRows rfl ⟨rfl, Nat.zero_le _⟩ Bool.noConfusion Phase.noConfusion judge 0
  refine ⟨r'.summary rows, ?_⟩
  rw [hof, Outcome.ofReader, outcome, read, hread]
  refine ⟨rfl, ?_, hprogress, hle, fun hstopped => hend fun hphase => ?_⟩
  · rwa [hstart, Nat.zero_add] at hrows
  · rw [summary, hphase] at hstopped
    exact absurd hstopped (by simp)

/-- The account of a split. -/
theorem Format.splitBytes_accounts (hr : f.encoding.resolve (bytes.take 4) = (e, start))
    (hs : f.splitsBytes e) (judge : Judge) :
    ∃ s, (f.splitBytes e judge start bytes).Accounts start bytes.length s := by
  obtain ⟨d, hd, -, -⟩ := Format.exists_serves hs
  have hle := Encoding.start_le_of_resolve hr
  have hrun : Bytewise.run d e judge start bytes =
      Bytewise.split d e judge ⟨0, 0, start⟩ .handing [] .zero (bytes.drop start) := by
    rw [Bytewise.run, Nat.min_eq_left hle]
  obtain ⟨hrows, hbytes, hend⟩ :=
    Bytewise.split_accounts d e judge ⟨0, 0, start⟩ .handing [] .zero (bytes.drop start)
  have hprogress := @Bytewise.split_progress d e judge ⟨0, 0, start⟩ .handing [] .zero
    (bytes.drop start) Bytewise.Tally.covers_zero
  rw [if_pos rfl, Nat.zero_add] at hrows
  rw [← hrun] at hrows hbytes hend hprogress
  dsimp only at hrows hbytes hend
  rw [List.length_drop, Nat.add_sub_cancel' hle] at hbytes hend
  rw [Format.splitBytes, hd]
  exact ⟨_, rfl, hrows, hprogress, hbytes, hend⟩

/-- Every text in memory can be read, whatever the verdicts, and the read gives
account of itself. -/
theorem readBytes_progress (hr : f.encoding.resolve (bytes.take 4) = (e, start))
    (hcheck : (o.strategy.getD .decode).check f e true = .ok ()) (judge : Judge) :
    ∃ s, (readBytes bytes f o judge).Accounts start bytes.length s := by
  rw [readBytes, hr]
  dsimp only
  split
  · rename_i h
    exact Format.splitBytes_accounts hr (Bool.and_eq_true_iff.mp h).2 judge
  · exact Reader.outcome_accounts hr hcheck judge

end Tabular
