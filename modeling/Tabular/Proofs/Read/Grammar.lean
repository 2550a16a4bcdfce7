/-
What is handed over when a text is read to its end.

* `Dialect.handedFrom` — the cells of a list of characters, with their places;
* `Ready.readCells_always`, `Ready.readRows_always` — a reader hands over just
  these, and comes to the end of the text;
* `readBytes_always` — so that is what comes out of a text in memory.

Design notes: `handedFrom` is the grammar of a text without the reader that
reads it, so what a text reads as is a matter of lists.
-/
import Tabular.Read.Whole
import Tabular.Proofs.Read.Start

namespace Tabular

theorem length_unquote_le (q : Char) (cs : List Scanned) :
    ((unquote q cs).2.getD []).length ≤ cs.length := by
  fun_induction unquote q cs with
  | case1 => exact Nat.le_refl _
  | case2 => exact Nat.zero_le _
  | case3 => exact Nat.zero_le _
  | case4 c d cs hq ih => exact Nat.le_trans ih (Nat.le_succ _)
  | case5 c d cs hq hd ih => exact Nat.le_trans ih (Nat.le_trans (Nat.le_succ _) (Nat.le_succ _))
  | case6 c d cs hq hd => exact Nat.le_succ _

namespace Dialect

theorem length_after_le (d : Dialect) (whitespace : List Char) (chars : List Scanned) :
    (d.cellOf whitespace chars).after.length ≤ chars.length := by
  have htrim : (d.trim whitespace chars).length ≤ chars.length := by
    rw [trim]
    split
    · exact (List.dropWhile_sublist _).length_le
    · exact Nat.le_refl _
  have hnaked : ∀ kept enclosed rest,
      (d.nakedOf kept enclosed rest).after.length ≤ rest.length :=
    fun _ _ _ => (List.dropWhile_sublist _).length_le
  rw [cellOf]
  cases h : d.trim whitespace chars with
  | nil => exact Nat.zero_le _
  | cons c cs =>
    rw [h] at htrim
    refine Nat.le_trans ?_ htrim
    show (d.partsFrom c cs).after.length ≤ _
    rw [partsFrom]
    split
    · exact Nat.le_trans (hnaked ..) (Nat.le_trans (length_unquote_le ..) (Nat.le_succ _))
    · exact hnaked ..

/-- What comes after a cell begins with what ends it. -/
theorem after_eq_nil {d : Dialect} {whitespace : List Char} {chars : List Scanned}
    (h : d.endOf (d.cellOf whitespace chars).after = .inputEnd) :
    (d.cellOf whitespace chars).after = [] := by
  have hnaked : ∀ kept enclosed rest, d.endOf (d.nakedOf kept enclosed rest).after = .inputEnd →
      (d.nakedOf kept enclosed rest).after = [] := by
    intro kept enclosed rest hend
    have hnot := List.head?_dropWhile_not d.isContent rest
    change d.endOf (rest.dropWhile d.isContent) = _ at hend
    show rest.dropWhile d.isContent = []
    cases hr : rest.dropWhile d.isContent with
    | nil => rfl
    | cons c cs =>
      rw [hr] at hnot hend
      obtain ⟨t, ht⟩ : ∃ t, d.ends? c.char = some t :=
        Option.isSome_iff_exists.mp (by simpa [isContent] using hnot)
      rw [endOf, ht] at hend
      exact CellEnd.noConfusion hend
  rw [cellOf] at h ⊢
  cases ht : d.trim whitespace chars with
  | nil => rfl
  | cons c cs =>
    rw [ht] at h
    change d.endOf (d.partsFrom c cs).after = _ at h
    show (d.partsFrom c cs).after = []
    rw [partsFrom] at h ⊢
    split
    · rename_i hc
      rw [if_pos hc] at h
      exact hnaked _ _ _ h
    · rename_i hc
      rw [if_neg hc] at h
      exact hnaked _ _ _ h

/-- What ends a cell is read as well. -/
theorem length_tail_lt {d : Dialect} {whitespace : List Char} {chars : List Scanned}
    {t : Terminator} (h : d.endOf (d.cellOf whitespace chars).after = .terminator t) :
    (d.cellOf whitespace chars).after.tail.length < chars.length := by
  have hle := d.length_after_le whitespace chars
  cases ha : (d.cellOf whitespace chars).after with
  | nil => simp [ha, endOf] at h
  | cons c cs =>
    rw [ha] at hle
    exact hle

end Dialect

/-- Where a cell stands, and its text. -/
def Handed.entry (h : Handed) : Nat × Nat × String := (h.row, h.column, h.cell.text)

/-- How the characters of a text become cells. -/
structure Handing where
  strategy : Strategy
  encoding : Encoding
  /-- The bytes that views refer to. -/
  viewed : List UInt8
  /-- Where the text ends. -/
  stop : Nat

/-- The cell that characters begin with. -/
def Handing.cell (k : Handing) (chars : List Scanned) (p : CellParts) : Cell :=
  CellBuffer.toCell { CellBuffer.empty.appendAll k.strategy p.kept with
    enclosed := p.enclosed
    rawBytes := offsetOf k.stop p.after - offsetOf k.stop chars } k.viewed k.encoding

/-- The text of a cell that is decoded is what is kept of it. -/
theorem Handing.text_cell {k : Handing} (hk : k.strategy = .decode) (chars : List Scanned)
    (p : CellParts) : (k.cell chars p).text = String.ofList (p.kept.map Scanned.char) := by
  rw [cell, hk]
  exact CellBuffer.text_toCell rfl rfl rfl ..

/-- The cells of characters, of which the first stands in that row and column.
No row begins at the end of the characters. -/
def Dialect.handedFrom (d : Dialect) (k : Handing) (row column : Nat) (chars : List Scanned) :
    List Handed :=
  if chars = [] ∧ column = 0 then []
  else
    let p := d.cellOf CellBuffer.empty.whitespace chars
    ⟨row, column, k.cell chars p⟩ ::
      match _h : d.endOf p.after with
      | .terminator .separator => handedFrom d k row (column + 1) p.after.tail
      | .terminator .lineEnd => handedFrom d k (row + 1) 0 p.after.tail
      | .inputEnd => []
termination_by chars.length
decreasing_by all_goals exact length_tail_lt _h

namespace Dialect

variable {d : Dialect} {k : Handing} {row column : Nat} {chars : List Scanned}

theorem handedFrom_nil (row : Nat) : d.handedFrom k row 0 [] = [] := by
  rw [handedFrom, if_pos ⟨rfl, rfl⟩]

theorem handedFrom_of_ne (hne : ¬ (chars = [] ∧ column = 0)) :
    let p := d.cellOf CellBuffer.empty.whitespace chars
    d.handedFrom k row column chars =
      ⟨row, column, k.cell chars p⟩ ::
        match d.endOf p.after with
        | .terminator .separator => d.handedFrom k row (column + 1) p.after.tail
        | .terminator .lineEnd => d.handedFrom k (row + 1) 0 p.after.tail
        | .inputEnd => [] := by
  rw [handedFrom, if_neg hne]
  dsimp only
  split <;> (rename_i h; rw [h])

theorem handedFrom_inputEnd (hne : ¬ (chars = [] ∧ column = 0))
    (h : d.endOf (d.cellOf CellBuffer.empty.whitespace chars).after = .inputEnd) :
    d.handedFrom k row column chars =
      [⟨row, column, k.cell chars (d.cellOf CellBuffer.empty.whitespace chars)⟩] := by
  rw [handedFrom_of_ne hne, h]

/-- There is a row where there is something to end a cell. -/
theorem ne_of_terminator {t : Terminator}
    (h : d.endOf (d.cellOf CellBuffer.empty.whitespace chars).after = .terminator t) :
    ¬ (chars = [] ∧ column = 0) := by
  rintro ⟨rfl, -⟩
  exact absurd (length_tail_lt h) (Nat.not_lt_zero _)

theorem handedFrom_separator
    (h : d.endOf (d.cellOf CellBuffer.empty.whitespace chars).after = .terminator .separator) :
    d.handedFrom k row column chars =
      ⟨row, column, k.cell chars (d.cellOf CellBuffer.empty.whitespace chars)⟩ ::
        d.handedFrom k row (column + 1)
          (d.cellOf CellBuffer.empty.whitespace chars).after.tail := by
  rw [handedFrom_of_ne (ne_of_terminator h), h]

theorem handedFrom_lineEnd
    (h : d.endOf (d.cellOf CellBuffer.empty.whitespace chars).after = .terminator .lineEnd) :
    d.handedFrom k row column chars =
      ⟨row, column, k.cell chars (d.cellOf CellBuffer.empty.whitespace chars)⟩ ::
        d.handedFrom k (row + 1) 0 (d.cellOf CellBuffer.empty.whitespace chars).after.tail := by
  rw [handedFrom_of_ne (ne_of_terminator h), h]

end Dialect

namespace Reader

/-- What a reader makes of characters. -/
def handing (r : Reader) (stop : Nat) : Handing := ⟨r.strategy, r.encoding, r.viewed, stop⟩

/-- A reader that hands over every cell, between two cells. -/
structure Ready (r : Reader) (d : Dialect) (k : Handing) (chars : List Scanned) : Prop where
  reads : r.Reads k.encoding k.stop chars
  dialect : r.dialect = d
  handing : r.handing k.stop = k
  /-- Nothing of an earlier cell matters. -/
  clear : r.buffer.clear = .empty
  serves : k.strategy ≠ .view ∨ d.enclosing = .off

namespace Ready

variable {r : Reader} {d : Dialect} {k : Handing} {chars : List Scanned}

theorem withHanded (h : r.Ready d k chars) (handed : List Handed) :
    Ready { r with handed } d k chars :=
  ⟨h.reads.congr rfl rfl rfl, h.dialect, h.handing, h.clear, h.serves⟩

/-- One cell. -/
theorem readCell (h : r.Ready d k chars) :
    let p := d.cellOf CellBuffer.empty.whitespace chars
    ∃ r', r.readCell = .ok (d.endOf p.after) r' ∧ r'.Ready d k p.after.tail ∧
      r'.cell = k.cell chars p ∧ r'.phase = (d.endOf p.after).phase ∧ r'.handed = r.handed := by
  obtain ⟨strategy, encoding, viewed, stop⟩ := k
  obtain ⟨hreads, rfl, hk, hclear, hserves⟩ := h
  obtain ⟨rfl, rfl, rfl, -⟩ := Handing.mk.inj hk
  have hws : r.buffer.whitespace = CellBuffer.empty.whitespace := by
    rw [← hclear]
    rfl
  obtain ⟨cs, hread, hcs⟩ := hreads.readCell hserves
  rw [hws, hclear] at hread
  rw [hws] at hcs
  have hencoding : cs.units.encoding = r.encoding := hcs.encoding
  refine ⟨_, hread, ⟨hcs.congr rfl rfl rfl, rfl, ?_, ?_, hserves⟩, ?_, rfl, rfl⟩
  · exact congrArg (Handing.mk r.strategy · r.viewed stop) hencoding
  · show CellBuffer.mk [] none 0 false (CellBuffer.appendAll ..).whitespace = _
    rw [CellBuffer.whitespace_appendAll]
    rfl
  · show CellBuffer.toCell _ _ cs.units.encoding = _
    rw [hencoding]
    rfl

/-- A line, to its end or to that of the text. -/
theorem readCells_always (h : r.Ready d k chars) (row column : Nat) :
    ∃ found r' rest, r.readCells .always row column .handing = .ok found r' ∧
      r'.Ready d k rest ∧
      (r'.phase = .inputEnd ∧ r'.handed = (d.handedFrom k row column chars).reverse ++ r.handed ∨
        r'.phase = .lineEnd ∧ found = true ∧ rest.length < chars.length ∧
          (d.handedFrom k (row + 1) 0 rest).reverse ++ r'.handed =
            (d.handedFrom k row column chars).reverse ++ r.handed) := by
  -- On the characters to come, of which a terminator takes one.
  induction hn : chars.length using Nat.strongRecOn generalizing chars r column with
  | _ n ih =>
    subst hn
    obtain ⟨r', hread, hr', hcell, hphase, hhanded⟩ := h.readCell
    have hpresent : r'.present .always row column .handing = (.handing, r'.handOver row column) :=
      rfl
    have hready : (r'.handOver row column).Ready d k _ := hr'.withHanded _
    have hpos : r.position = offsetOf k.stop chars := h.reads.position
    have hpos' : r'.position = offsetOf k.stop _ := hr'.reads.position
    rw [Reader.readCells, hread]
    dsimp only
    rw [hpresent]
    cases hend : d.endOf (d.cellOf CellBuffer.empty.whitespace chars).after with
    | inputEnd =>
      rw [Dialect.after_eq_nil hend] at hr' hpos'
      by_cases hnone : chars = [] ∧ column = 0
      · obtain ⟨rfl, rfl⟩ := hnone
        rw [if_pos ⟨rfl, rfl, hpos'.trans hpos.symm⟩, Dialect.handedFrom_nil]
        exact ⟨false, r', _, rfl, hr', .inl ⟨by rw [hphase, hend]; rfl, hhanded⟩⟩
      · rw [Dialect.handedFrom_inputEnd hnone hend, if_neg]
        · refine ⟨true, _, _, rfl, hready, .inl ⟨by rw [Reader.handOver, hphase, hend]; rfl, ?_⟩⟩
          rw [Reader.handOver, hcell, hhanded]
          rfl
        · rintro ⟨-, hcolumn, heq⟩
          rw [hpos, hpos'] at heq
          refine hnone ⟨?_, hcolumn⟩
          -- Were there characters, the reader would have moved.
          by_contra hne
          exact absurd heq.symm (Nat.ne_of_lt (h.reads.reads.offsetOf_lt hne))
    | terminator t =>
      rw [if_neg (by simp)]
      cases t with
      | separator =>
        obtain ⟨found, r'', rest, hcells, hr'', hline⟩ :=
          ih _ (Dialect.length_tail_lt hend) hready (column + 1) rfl
        rw [Dialect.handedFrom_separator hend, List.reverse_cons, List.append_assoc,
          List.singleton_append, ← hcell, ← hhanded]
        refine ⟨found, r'', rest, hcells, hr'', hline.imp_right ?_⟩
        rintro ⟨hphase'', hfound, hlt, heq⟩
        exact ⟨hphase'', hfound, Nat.lt_trans hlt (Dialect.length_tail_lt hend), heq⟩
      | lineEnd =>
        rw [Dialect.handedFrom_lineEnd hend, List.reverse_cons, List.append_assoc,
          List.singleton_append, ← hcell, ← hhanded]
        exact ⟨true, _, _, rfl, hready, .inr ⟨by rw [Reader.handOver, hphase, hend]; rfl, rfl,
          Dialect.length_tail_lt hend, rfl⟩⟩

/-- A text, to its end. -/
theorem readRows_always (h : r.Ready d k chars) (hp : r.phase.isFinal = false) (row : Nat) :
    ∃ rows r', r.readRows .always row = .ok rows r' ∧ r'.phase = .inputEnd ∧
      r'.handed = (d.handedFrom k row 0 chars).reverse ++ r.handed := by
  induction hn : chars.length using Nat.strongRecOn generalizing chars r row with
  | _ n ih =>
    subst hn
    obtain ⟨found, r', rest, hcells, hr', hline⟩ := h.readCells_always row 0
    -- No verdict changes the strategy, so there is nothing to restore.
    have hready : ({ r' with strategy := r.strategy }.account).Ready d k rest := by
      have hstrategy : r'.strategy = r.strategy :=
        congrArg Handing.strategy (hr'.handing.trans h.handing.symm)
      rw [← hstrategy]
      exact ⟨hr'.reads.congr rfl rfl rfl, hr'.dialect, hr'.handing, hr'.clear, hr'.serves⟩
    rw [Reader.readRows, if_neg (by simp [hp]), Reader.readRow, hcells]
    dsimp only
    rcases hline with ⟨hphase, hhanded⟩ | ⟨hphase, rfl, hlt, hhanded⟩
    · rw [Reader.readRows]
      refine ⟨_, _, if_pos ?_, hphase, hhanded⟩
      show r'.phase.isFinal
      rw [hphase]
      rfl
    · have hp' : ({ r' with strategy := r.strategy }.account).phase.isFinal = false := by
        show r'.phase.isFinal = false
        rw [hphase]
        rfl
      obtain ⟨rows, r'', hrows, hphase'', hhanded''⟩ := ih rest.length hlt hready hp' (row + 1) rfl
      exact ⟨rows, r'', hrows, hphase'', hhanded''.trans hhanded⟩

theorem ofFresh {chars : Chars} {f : Format} {o : ReadOptions} {bytes : List UInt8}
    {e : Encoding} {cs : List Scanned}
    (h : (fresh chars f o bytes).Reads e bytes.length cs)
    (hs : o.strategy.getD .decode ≠ .view ∨ f.enclosing = .off) :
    (fresh chars f o bytes).Ready f.toDialect ⟨o.strategy.getD .decode, e, bytes, bytes.length⟩
      cs :=
  ⟨h, rfl, congrArg (Handing.mk _ · bytes bytes.length) h.encoding, rfl, hs⟩

end Ready

end Reader

/-- A text in memory that is read by characters hands over its cells, and
nothing fails. -/
theorem readBytes_always {bytes : List UInt8} {f : Format} {o : ReadOptions} {e : Encoding}
    {start : Nat} {units : List Nat} (hr : f.encoding.resolve (bytes.take 4) = (e, start))
    (hchars : (o.allowBytewise && f.splitsBytes e) = false)
    (hs : (o.strategy.getD .decode).check f e true = .ok ())
    (hv : o.strategy.getD .decode ≠ .view ∨ f.enclosing = .off) (hf : f.toDialect.Settled)
    (hg : e.Groups (bytes.drop start) units) :
    ∃ summary progress, readBytes bytes f o .always =
      ⟨f.handedFrom ⟨o.strategy.getD .decode, e, bytes, bytes.length⟩ 0 0
        (logical f.folds ((o.strategy.getD .decode).scanned e bytes.length units)),
        .ok summary, progress⟩ := by
  obtain ⟨chars, hof, hreads⟩ := Reader.ofBytes_eq_ok hr hs hf hg
  obtain ⟨rows, r', hrows, -, hhanded⟩ :=
    (Reader.Ready.ofFresh hreads hv).readRows_always rfl 0
  refine ⟨r'.summary rows, r'.progress, ?_⟩
  rw [readBytes, hr]
  simp only [hchars, Bool.false_eq_true, if_false]
  rw [hof, Outcome.ofReader, Reader.outcome, Reader.read, hrows]
  simp only [hhanded]
  rw [List.reverse_append, List.reverse_reverse]
  rfl

end Tabular
