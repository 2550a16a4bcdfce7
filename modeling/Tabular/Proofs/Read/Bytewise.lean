/-
Splitting bytes finds the cells that reading characters finds.

* `Bytewise.At` — a reader stands where a split stands, and both have handed
  over cells on the same bytes;
* `At.readCell_end`, `At.readCell_byte` — one cell keeps it so;
* `At.readCells`, `At.readRows` — so does a line, and so do all of them.

Design notes: the two loops take their turns at different places.  The reader
asks after each cell whether its line goes on, the split after each byte that
ends one, so a line of the reader is followed through the split as far as the
byte that ends it, and the rest of the split is left as it is.
-/
import Mathlib.Data.List.Forall2
import Tabular.Read.Whole
import Tabular.Proofs.Read.Runs
import Tabular.Proofs.Read.Start
import Tabular.Proofs.Text.WholeRun

namespace Tabular

/-- Verdicts that depend on where a cell stands, and not on what is in it. -/
def Judge.ofPlace (verdict : Nat → Nat → Verdict) : Judge := fun row column _ => verdict row column

/-- The cell on the bytes at `position` as a strategy has it. -/
def Strategy.cellAt (s : Strategy) (e : Encoding) (position : Nat) (bytes : List UInt8) : Cell where
  text := String.ofList
    (if s = .view then e.decodeBytes bytes else e.decode (bytes.map UInt8.toNat))
  enclosed := false
  rawBytes := bytes.length
  view := if s = .view ∧ bytes ≠ [] then some ⟨position, position + bytes.length⟩ else none

theorem Encoding.decodeBytes_nil (e : Encoding) : e.decodeBytes [] = [] := by
  cases e <;> rfl

namespace CellBuffer

/-- A view that has begun goes on to the last character. -/
theorem view_appendAll {b : CellBuffer} {span : Span} (hb : b.view = some span)
    (cs : List Scanned) :
    (b.appendAll .view cs).view =
      some { span with stop := (cs.getLast?.map fun c => c.span.stop).getD span.stop } := by
  induction cs generalizing b span with
  | nil => exact hb
  | cons c cs ih =>
    have hc : (b.append .view c).view = some { span with stop := c.span.stop } := by
      simp [append, hb]
    rw [appendAll, List.foldl_cons, ← appendAll, ih hc]
    cases cs with
    | nil => rfl
    | cons d cs => rw [List.getLast?_cons_cons]; cases h : (d :: cs).getLast? <;> simp_all

/-- The view of a run is on all of its bytes. -/
theorem view_run {e : Encoding} (he : e.isSingleByte) (b : CellBuffer) {part : List UInt8}
    (hne : part ≠ []) (position : Nat) :
    (b.clear.appendAll .view
      (Strategy.decode.scanned e (position + part.length) (part.map UInt8.toNat))).view =
        some ⟨position, position + part.length⟩ := by
  obtain ⟨x, xs, rfl⟩ := List.exists_cons_of_ne_nil hne
  generalize hstop : position + (x :: xs).length = stop
  obtain ⟨c, rest, hf⟩ := Strategy.decode.exists_first e x.toNat (xs.map UInt8.toNat)
  have hstart := @Strategy.offsetOf_scanned .decode e stop ((x :: xs).map UInt8.toNat)
  have hlast := @Strategy.stop_of_getLast?_scanned .decode e stop ((x :: xs).map UInt8.toNat)
  -- One unit a byte, so that offsets are counted in bytes.
  rw [Encoding.unitWidth_eq_one he, Nat.one_mul, List.length_map,
    ← Nat.eq_sub_of_add_eq hstop] at hstart
  rw [List.map_cons, Strategy.scanned_of_first hf] at hlast hstart ⊢
  generalize Scanned.mk c _ = first at *
  generalize Strategy.decode.scanned e stop rest = cs at *
  have hfirst : (b.clear.append .view first).view = some first.span := rfl
  rw [appendAll, List.foldl_cons, ← appendAll, view_appendAll hfirst]
  obtain rfl : first.span.start = position := hstart
  cases h : cs.getLast? with
  | none =>
    obtain rfl := List.getLast?_eq_none_iff.mp h
    rw [← hlast rfl]
    rfl
  | some last =>
    have : (first :: cs).getLast? = some last := by rw [List.getLast?_cons, h]; rfl
    rw [← hlast this]
    rfl

/-- What a buffer makes of the characters of a run. -/
theorem toCell_run {s : Strategy} (hs : s = .decode ∨ s = .view) {e : Encoding}
    (he : e.isSingleByte) (b : CellBuffer) {part viewed : List UInt8} {position : Nat}
    (hpart : (viewed.drop position).take part.length = part) :
    CellBuffer.toCell { b.clear.appendAll s
        (Strategy.decode.scanned e (position + part.length) (part.map UInt8.toNat)) with
      enclosed := false, rawBytes := part.length } viewed e = s.cellAt e position part := by
  rcases hs with rfl | rfl
  · rw [appendAll_keeps rfl]
    simp only [toCell, clear, Strategy.cellAt, List.append_nil, List.reverse_reverse,
      Strategy.map_char_scanned (show Strategy.decode ≠ .raw by decide)]
    rfl
  · by_cases hne : part = []
    · subst hne
      simp [Strategy.cellAt, toCell, appendAll, clear, Encoding.decodeBytes_nil]
    · have hslice : Span.slice ⟨position, position + part.length⟩ viewed = part := by
        rw [Span.slice, Nat.add_sub_cancel_left, hpart]
      simp only [toCell, view_run he b hne position, hslice, Strategy.cellAt, if_true,
        ne_eq, hne, not_false_eq_true, and_self]

end CellBuffer

namespace Bytewise

/-- Two cells handed over at one place, made of the same bytes of a text. -/
structure Alike (s : Strategy) (e : Encoding) (bytes : List UInt8) (h g : Handed) : Prop where
  row : h.row = g.row
  column : h.column = g.column
  cell : ∃ position part, part <:+: bytes ∧ h.cell = cellAt e position part ∧
    g.cell = s.cellAt e position part

/-- The strategy of a reader that keeps cells with `s`, by what becomes of the
line. -/
def strategyIn (s : Strategy) : LineMode → Strategy
  | .handing | .stopped => s
  | .skipping _ => .discard

variable {d : Ends} {f : Dialect} {e : Encoding} {s : Strategy} {bytes : List UInt8}
  {mode : LineMode} {handed : List Handed} {r : Reader} {position : Nat} {rest : List UInt8}

/-- A reader that stands where a split stands, before the bytes `rest`. -/
structure At (f : Dialect) (e : Encoding) (s : Strategy) (bytes : List UInt8) (mode : LineMode)
    (handed : List Handed) (r : Reader) (position : Nat) (rest : List UInt8) : Prop where
  dialect : r.dialect = f
  viewed : r.viewed = bytes
  strategy : r.strategy = strategyIn s mode
  reads : r.Reads e bytes.length (f.charsOf e bytes.length rest)
  rest_eq : bytes.drop position = rest
  position_le : position ≤ bytes.length
  progress : r.progress = r.accounted
  accounted_le : r.accounted ≤ position
  handed : List.Forall₂ (Alike s e bytes) handed r.handed

namespace At

theorem add_length (h : At f e s bytes mode handed r position rest) :
    position + rest.length = bytes.length := by
  have := h.position_le
  rw [← h.rest_eq, List.length_drop]
  omega

theorem position_eq (he : e.isSingleByte) (h : At f e s bytes mode handed r position rest) :
    r.position = position := by
  have := h.add_length
  rw [h.reads.position, Dialect.offsetOf_charsOf he]
  omega

theorem isInfix (h : At f e s bytes mode handed r position rest) : rest <:+: bytes :=
  h.rest_eq ▸ (List.drop_suffix _ _).isInfix

theorem withPhase (h : At f e s bytes mode handed r position rest) (phase : Phase) :
    At f e s bytes mode handed { r with phase } position rest :=
  ⟨h.dialect, h.viewed, h.strategy, h.reads.congr rfl rfl rfl, h.rest_eq, h.position_le,
    h.progress, h.accounted_le, h.handed⟩

/-- A cell is handed over by both, and both heed the verdict on it. -/
theorem present (h : At f e s bytes mode handed r position rest) (verdict : Nat → Nat → Verdict)
    (hs : s ≠ .raw) {start : Nat} {part : List UInt8} (hpart : part <:+: bytes)
    (hcell : mode = .handing → r.cell = s.cellAt e start part) (hm : mode ≠ .stopped)
    (row column : Nat) :
    let q := Bytewise.present (.ofPlace verdict) ⟨row, column, start⟩ (cellAt e start part) mode
      handed
    ∃ r', r.present (.ofPlace verdict) row column mode = (q.1, r') ∧
      At f e s bytes q.1 q.2 r' position rest ∧
      r'.phase = if q.1 = .stopped then .stopped else r.phase := by
  cases mode with
  | stopped => exact absurd rfl hm
  | skipping t =>
    refine ⟨r, rfl, h, ?_⟩
    simp [Bytewise.present]
  | handing =>
    have halike : Alike s e bytes ⟨row, column, cellAt e start part⟩ ⟨row, column, r.cell⟩ :=
      ⟨rfl, rfl, start, part, hpart, rfl, hcell rfl⟩
    have hhanded : List.Forall₂ (Alike s e bytes) (⟨row, column, cellAt e start part⟩ :: handed)
        (r.handOver row column).handed := .cons halike h.handed
    have hr : r.strategy = s := h.strategy
    have hreads : ((r.handOver row column)).Reads e bytes.length (f.charsOf e bytes.length rest) :=
      h.reads.congr rfl rfl rfl
    -- A line that is skipped is still decoded, only not kept.
    have hdiscard := hreads.of_decoding (s := .discard) (show r.strategy ≠ .raw from hr ▸ hs)
      (by decide)
    refine ⟨(r.handOver row column).heed (.ofVerdict (verdict row column)), rfl, ?_⟩
    show At f e s bytes (.ofVerdict (verdict row column)) _ _ _ _ ∧ _ =
      if LineMode.ofVerdict (verdict row column) = .stopped then _ else _
    generalize LineMode.ofVerdict (verdict row column) = next
    cases next with
    | handing =>
      exact ⟨⟨h.dialect, h.viewed, hr, hreads, h.rest_eq, h.position_le, h.progress,
        h.accounted_le, hhanded⟩, rfl⟩
    | skipping thenStop =>
      exact ⟨⟨h.dialect, h.viewed, rfl, hdiscard, h.rest_eq, h.position_le, h.progress,
        h.accounted_le, hhanded⟩, rfl⟩
    | stopped =>
      exact ⟨⟨h.dialect, h.viewed, hr, hreads.congr rfl rfl rfl, h.rest_eq, h.position_le,
        h.progress, h.accounted_le, hhanded⟩, rfl⟩

/-- What a reader makes of the next cell, when it has read the characters of
`part` and `rest'` is what comes after the cell. -/
theorem readCell (h : At f e s bytes mode handed r position rest) (hd : d.Serves f)
    (he : e.isSingleByte) (hs : s = .decode ∨ s = .view) (part rest' : List UInt8)
    (position' : Nat) (after : List Scanned) (hpart : (bytes.drop position).take part.length = part)
    (hcontent : ∀ b ∈ part, d.isContent b)
    (hchars : f.charsOf e bytes.length rest = f.charsOf e (position + part.length) part ++ after)
    (hafter : ∀ c ∈ after.head?, f.isContent c = false)
    (hoffset : offsetOf bytes.length after = position + part.length)
    (htail : after.tail = f.charsOf e bytes.length rest')
    (hrest : bytes.drop position' = rest') (hle : position ≤ position')
    (hle' : position' ≤ bytes.length) :
    ∃ r', r.readCell = .ok (f.endOf after) r' ∧
      At f e s bytes mode handed r' position' rest' ∧ r'.phase = (f.endOf after).phase ∧
      (mode = .handing → r'.cell = s.cellAt e position part) := by
  have hdialect := h.dialect
  have hstart : offsetOf bytes.length (f.charsOf e bytes.length rest) = position := by
    have := h.add_length
    rw [Dialect.offsetOf_charsOf he]
    omega
  -- The characters of `part` are all content, so they are the cell.
  have hcell : f.cellOf r.buffer.whitespace (f.charsOf e bytes.length rest) =
      ⟨Strategy.decode.scanned e (position + part.length) (part.map UInt8.toNat), false,
        after⟩ := by
    rw [hchars, hd.charsOf_content he hcontent]
    exact hd.cellOf_append (fun c hc => hd.isContent_of_mem he hcontent hc) hafter _
  obtain ⟨cs, hread, hcs⟩ := h.reads.readCell (.inr (hdialect ▸ hd.enclosing))
  rw [hdialect, hcell, hstart, hoffset, Nat.add_sub_cancel_left] at hread
  rw [hdialect, hcell, htail] at hcs
  refine ⟨_, hread, ⟨rfl, h.viewed, h.strategy, hcs.congr rfl rfl rfl, hrest, hle', h.progress,
    Nat.le_trans h.accounted_le hle, h.handed⟩, rfl, ?_⟩
  rintro rfl
  have hstrategy : r.strategy = s := h.strategy
  have hencoding : cs.units.encoding = e := hcs.encoding
  have hviewed := h.viewed
  show CellBuffer.toCell _ r.viewed cs.units.encoding = _
  rw [hencoding, hviewed, hstrategy]
  exact CellBuffer.toCell_run hs he r.buffer hpart

/-- The last cell of a text. -/
theorem readCell_end (h : At f e s bytes mode handed r position rest) (hd : d.Serves f)
    (he : e.isSingleByte) (hs : s = .decode ∨ s = .view) (hrest : ∀ b ∈ rest, d.isContent b) :
    ∃ r', r.readCell = .ok .inputEnd r' ∧
      At f e s bytes mode handed r' (position + rest.length) [] ∧ r'.phase = .inputEnd ∧
      (mode = .handing → r'.cell = s.cellAt e position rest) := by
  have hlen := h.add_length
  have hpart : (bytes.drop position).take rest.length = rest := by
    rw [h.rest_eq, List.take_length]
  refine h.readCell hd he hs rest [] (position + rest.length) [] hpart hrest ?_ ?_ ?_ ?_ ?_ ?_ ?_
  · rw [hlen, List.append_nil]
  · simp
  · exact hlen.symm
  · simp [Dialect.charsOf]
  · rw [hlen, List.drop_length]
  · exact Nat.le_add_right ..
  · exact hlen.le

/-- A cell that a byte ends. -/
theorem readCell_byte {run rest : List UInt8} {b : UInt8}
    (h : At f e s bytes mode handed r position (run ++ b :: rest)) (hd : d.Serves f)
    (he : e.isSingleByte) (hs : s = .decode ∨ s = .view) (hf : ¬ f.foldsSeparator)
    (hrun : ∀ x ∈ run, d.isContent x) (hb : d.isContent b = false) :
    ∃ r', r.readCell = .ok (.terminator (if b = d.separator then .separator else .lineEnd)) r' ∧
      At f e s bytes mode handed r' (position + run.length + 1) rest ∧
      r'.phase = (if b = d.separator then .separator else .lineEnd) ∧
      (mode = .handing → r'.cell = s.cellAt e position (d.cellBytes run b)) := by
  have hlen := h.add_length
  rw [List.length_append, List.length_cons] at hlen
  have hascii := hd.lt_of_not_isContent hb
  have hcell := d.cellBytes_prefix run b
  -- A carriage return before the byte is not a part of the cell.
  have hpart : (bytes.drop position).take (d.cellBytes run b).length = d.cellBytes run b := by
    rw [h.rest_eq, List.take_append_of_le_length hcell.length_le]
    exact (List.prefix_iff_eq_take.mp hcell).symm
  have hend : ∀ (span : Span) (cs : List Scanned), f.endOf (⟨Char.ofNat b.toNat, span⟩ :: cs) =
      .terminator (if b = d.separator then .separator else .lineEnd) := by
    intro span cs
    rw [Dialect.endOf, hd.ends?_byte hascii]
    by_cases hbs : b = d.separator
    · rw [if_pos hbs, if_pos hbs]
      rfl
    · rw [if_neg hbs, if_neg hbs, if_pos ((d.eq_of_not_isContent hb).resolve_left hbs)]
      rfl
  have hafter : ∀ (span : Span) (cs : List Scanned),
      ∀ c ∈ (⟨Char.ofNat b.toNat, span⟩ :: cs).head?, f.isContent c = false := by
    rintro span cs c hc
    obtain rfl : _ = c := by simpa using hc
    rw [hd.isContent_byte hascii rfl, hb]
  have hrest : bytes.drop (position + run.length + 1) = rest := by
    rw [Nat.add_assoc, ← List.drop_drop, h.rest_eq, ← List.drop_drop, List.drop_left]
    rfl
  obtain ⟨r', hread, hr', hphase, hcell'⟩ := h.readCell hd he hs (d.cellBytes run b) rest
    (position + run.length + 1) _ hpart (fun x hx => hrun x (hcell.subset hx))
    (hd.charsOf_run he hf hrun hb (by omega)) (hafter _ _) rfl rfl hrest (by omega) (by omega)
  refine ⟨r', hend _ _ ▸ hread, hr', ?_, hcell'⟩
  rw [hphase, hend]
  split <;> rfl

/-- The last cells of a text end it for both. -/
theorem readCells_end (h : At f e s bytes mode handed r position rest) (hd : d.Serves f)
    (he : e.isSingleByte) (hs : s = .decode ∨ s = .view) (verdict : Nat → Nat → Verdict)
    (hm : mode ≠ .stopped) (row column : Nat) (t : Tally) (hrest : ∀ b ∈ rest, d.isContent b) :
    ∃ found r' mode' handed' position' t',
      r.readCells (.ofPlace verdict) row column mode = .ok found r' ∧
      At f e s bytes mode' handed' r' position' [] ∧ r'.phase.isFinal ∧
      split d e (.ofPlace verdict) ⟨row, column, position⟩ mode handed t rest =
        .ended (if found then row + 1 else row) position' (r'.phase == .stopped) handed' t' := by
  have hraw : s ≠ .raw := by rcases hs with rfl | rfl <;> decide
  obtain ⟨r', hread, hr', hphase, hcell⟩ := h.readCell_end hd he hs hrest
  have hpos := h.position_eq he
  have hpos' := hr'.position_eq he
  by_cases hnone : rest = [] ∧ column = 0
  · -- Nothing is left for another row, and both stop here.
    obtain ⟨rfl, rfl⟩ := hnone
    refine ⟨false, r', mode, handed, position, t, ?_, hr', by rw [hphase]; rfl, ?_⟩
    · rw [Reader.readCells, hread]
      dsimp only
      rw [if_pos ⟨rfl, rfl, by rw [hpos, hpos']; rfl⟩]
    · rw [split_nil, hphase]
      rfl
  · obtain ⟨r'', hpresent, hr'', hphase'⟩ :=
      hr'.present verdict hraw h.isInfix hcell hm row column
    -- The reader tells by its position that there is a cell.
    have hfound : ¬ (CellEnd.inputEnd = .inputEnd ∧ column = 0 ∧ r'.position = r.position) := by
      rintro ⟨-, hcolumn, heq⟩
      rw [hpos, hpos'] at heq
      exact hnone ⟨List.length_eq_zero_iff.mp (by omega), hcolumn⟩
    rw [hphase] at hphase'
    rw [split_end hrest hnone, Reader.readCells, hread]
    dsimp only
    rw [if_neg hfound, hpresent]
    dsimp only at hr'' hphase' ⊢
    generalize Bytewise.present (.ofPlace verdict) _ _ mode handed = q at hr'' hphase' ⊢
    obtain ⟨next, handed'⟩ := q
    cases next with
    | handing =>
      exact ⟨true, r'', .handing, handed', _, _, rfl, hr'', by rw [hphase']; rfl,
        by rw [hphase']; rfl⟩
    | stopped =>
      exact ⟨true, r'', .stopped, handed', _, _, rfl, hr'', by rw [hphase']; rfl,
        by rw [hphase']; rfl⟩
    | skipping thenStop =>
      cases thenStop with
      | true =>
        exact ⟨true, _, .skipping true, handed', _, _, rfl, hr''.withPhase .stopped, rfl, rfl⟩
      | false =>
        exact ⟨true, r'', .skipping false, handed', _, _, rfl, hr'', by rw [hphase']; rfl,
          by rw [hphase']; rfl⟩

/-- One line, of which the split may find the end or be at its own. -/
theorem readCells (h : At f e s bytes mode handed r position rest) (hd : d.Serves f)
    (he : e.isSingleByte) (hs : s = .decode ∨ s = .view) (hf : ¬ f.foldsSeparator)
    (verdict : Nat → Nat → Verdict) (hm : mode ≠ .stopped) (row column : Nat) (t : Tally) :
    let out := split d e (.ofPlace verdict) ⟨row, column, position⟩ mode handed t rest
    ∃ found r' mode' handed' position' t' rest',
      r.readCells (.ofPlace verdict) row column mode = .ok found r' ∧
      At f e s bytes mode' handed' r' position' rest' ∧
      (r'.phase.isFinal ∧
          out = .ended (if found then row + 1 else row) position' (r'.phase == .stopped) handed'
            t' ∨
        r'.phase.isFinal = false ∧ found = true ∧ rest'.length < rest.length ∧
          out = split d e (.ofPlace verdict) ⟨row + 1, 0, position'⟩ .handing handed' t' rest') := by
  -- On the bytes that are left: every cell but the last takes a byte at least.
  induction hn : rest.length using Nat.strongRecOn
    generalizing rest r mode handed position column with
  | _ n ih =>
    subst hn
    intro out
    have hraw : s ≠ .raw := by rcases hs with rfl | rfl <;> decide
    rcases d.all_content_or_run rest with hrest | ⟨run, b, rest', rfl, hrun, hb⟩
    · obtain ⟨found, r', mode', handed', position', t', hcells, hr', hfinal, hout⟩ :=
        h.readCells_end hd he hs verdict hm row column t hrest
      exact ⟨found, r', mode', handed', position', t', [], hcells, hr', .inl ⟨hfinal, hout⟩⟩
    · obtain ⟨r', hread, hr', hphase, hcell⟩ := h.readCell_byte hd he hs hf hrun hb
      have hpart : d.cellBytes run b <:+: bytes := by
        have hrun : run <:+: run ++ b :: rest' := (List.prefix_append _ _).isInfix
        exact (d.cellBytes_prefix run b).isInfix.trans (hrun.trans h.isInfix)
      obtain ⟨r'', hpresent, hr'', hphase'⟩ := hr'.present verdict hraw hpart hcell hm row column
      have hout : out = _ := split_byte hrun hb
      rw [hphase] at hphase'
      rw [hout, Reader.readCells, hread]
      dsimp only
      rw [if_neg (by simp), hpresent]
      dsimp only at hr'' hphase' ⊢
      generalize Bytewise.present (.ofPlace verdict) _ _ mode handed = q at hr'' hphase' ⊢
      obtain ⟨next, handed'⟩ := q
      dsimp only at hr'' hphase' ⊢
      by_cases hnext : next = .stopped
      · subst hnext
        exact ⟨true, r'', .stopped, handed', _, _, rest', rfl, hr'', .inl ⟨by rw [hphase']; rfl,
          by rw [hphase']; rfl⟩⟩
      rw [if_neg hnext] at hphase' ⊢
      have hlen : rest'.length < (run ++ b :: rest').length := by
        rw [List.length_append, List.length_cons]
        omega
      by_cases hsep : b = d.separator
      · -- The line goes on.
        obtain ⟨found, r₃, mode', handed₃, position', t', rest₃, hcells, hr₃, hline⟩ :=
          ih rest'.length hlen hr'' hnext (column + 1) rfl
        rw [if_neg hnext, if_pos hsep, if_pos hsep, if_pos rfl]
        refine ⟨found, r₃, mode', handed₃, position', t', rest₃, hcells, hr₃,
          hline.imp_right ?_⟩
        rintro ⟨hfinal, hfound, hlt, heq⟩
        exact ⟨hfinal, hfound, Nat.lt_trans hlt hlen, heq⟩
      · rw [if_neg hsep] at hphase'
        rw [if_neg hnext, if_neg hsep, if_neg hsep, if_neg (by simp)]
        -- A verdict may skip what is left of the line and then stop.
        by_cases hskip : next = .skipping true
        · rw [if_pos hskip, if_pos hskip]
          exact ⟨true, _, next, handed', _, _, rest', rfl, hr''.withPhase .stopped,
            .inl ⟨rfl, rfl⟩⟩
        · rw [if_neg hskip, if_neg hskip]
          exact ⟨true, r'', next, handed', _, _, rest', rfl, hr'',
            .inr ⟨by rw [hphase']; rfl, rfl, hlen, rfl⟩⟩

/-- Between two lines the strategy is again what it was, and the account of
the bytes is up to date. -/
theorem account (h : At f e s bytes mode handed r position rest) (he : e.isSingleByte)
    (hs : s ≠ .raw) :
    At f e s bytes .handing handed { r with strategy := s }.account position rest := by
  have hr : r.strategy ≠ .raw := by
    rw [h.strategy]
    cases mode with
    | handing | stopped => exact hs
    | skipping => exact Strategy.noConfusion
  have hpos := h.position_eq he
  have hprogress := h.progress
  have haccounted := h.accounted_le
  refine ⟨h.dialect, h.viewed, rfl, (h.reads.of_decoding hr hs).congr rfl rfl rfl, h.rest_eq,
    h.position_le, ?_, ?_, h.handed⟩
  · show r.progress + (r.position - r.accounted) = r.position
    omega
  · show r.position ≤ position
    omega

theorem progress_account (h : At f e s bytes mode handed r position rest) (he : e.isSingleByte) :
    { r with strategy := s }.account.progress = position := by
  have hpos := h.position_eq he
  have hprogress := h.progress
  have haccounted := h.accounted_le
  show r.progress + (r.position - r.accounted) = position
  omega

/-- Line after line, to the end of the input or to where a verdict stops. -/
theorem readRows (h : At f e s bytes .handing handed r position rest) (hd : d.Serves f)
    (he : e.isSingleByte) (hs : s = .decode ∨ s = .view) (hf : ¬ f.foldsSeparator)
    (hp : r.phase.isFinal = false) (verdict : Nat → Nat → Verdict) (row : Nat) (t : Tally) :
    let out := split d e (.ofPlace verdict) ⟨row, 0, position⟩ .handing handed t rest
    ∃ r' mode' rest', r.readRows (.ofPlace verdict) row = .ok out.rows r' ∧
      At f e s bytes mode' out.handed r' out.bytesRead rest' ∧
      (r'.phase == .stopped) = out.stopped ∧ r'.progress = out.bytesRead := by
  induction hn : rest.length using Nat.strongRecOn generalizing rest r handed position row t with
  | _ n ih =>
    subst hn
    intro out
    have hraw : s ≠ .raw := by rcases hs with rfl | rfl <;> decide
    have hstrategy : r.strategy = s := h.strategy
    obtain ⟨found, r', mode', handed', position', t', rest', hcells, hr', hline⟩ :=
      h.readCells hd he hs hf verdict (by decide) row 0 t
    -- What was skipped in the line is kept again from the next one on.
    have hr := hr'.account he hraw
    have hrow : r.readRow (.ofPlace verdict) row = .ok found { r' with strategy := s }.account := by
      rw [Reader.readRow, hcells, hstrategy]
    rw [Reader.readRows, if_neg (by simp [hp]), hrow]
    dsimp only
    rcases hline with ⟨hfinal, heq⟩ | ⟨hfinal, rfl, hlt, heq⟩
    · rw [show out = _ from heq, Reader.readRows]
      exact ⟨_, _, _, if_pos hfinal, hr, rfl, hr'.progress_account he⟩
    · obtain ⟨r₂, mode₂, rest₂, hrows, hr₂, hstopped, hprogress⟩ :=
        ih rest'.length hlt hr hfinal (row + 1) t' rfl
      rw [show out = _ from heq]
      exact ⟨r₂, mode₂, rest₂, hrows, hr₂, hstopped, hprogress⟩

end At

end Bytewise

end Tabular
