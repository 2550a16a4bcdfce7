/-
Texts of which lines are passed over, read unit by unit.

* `Judge.skipping` — a verdict that passes over all but the first cell of some
  lines, and `Handed.isLeft` — the cells that it leaves;
* `Reader.Passes` — a reader between two cells of a line that it passes over;
* `Reader.Passes.readCells` — it comes to the end of the line;
* `AgreeBut` — the same cells but for those of one row;
* `Reader.Between.readRow_skipping`, `Reader.Between.readRows_skipping` — so what
  is passed over makes no difference to what comes after it, but for the second
  row;
* `readBytes_skipping` — the cells that are handed over of a text.

Design notes: what is passed over is decoded, though the text is read unit by
unit.  That is seen where what ends lines is not plain, and where a carriage
return turns out to end lines while a line is passed over, as the character
after it has been decoded by then.  The second can only happen to the first
line, and is seen in the cells of the second.
-/
import Tabular.Proofs.Read.Parallel
import Tabular.Proofs.Read.Progress
import Tabular.Proofs.Read.Skim
import Tabular.Proofs.Read.Trim

namespace Tabular

/-- A verdict that passes over some lines, but for their first cells. -/
def Judge.skipping (skips : Nat → Bool) : Judge := fun row column _ =>
  if column = 0 ∧ skips row then .skipLine else .proceed

theorem Judge.not_stops_skipping (skips : Nat → Bool) (row column : Nat) (cell : Cell) :
    ¬ (skipping skips row column cell).stops := by
  rw [skipping]
  split <;> exact Bool.false_ne_true

/-- Whether a cell is left when these lines are passed over. -/
def Handed.isLeft (skips : Nat → Bool) (h : Handed) : Bool := !skips h.row || h.column == 0

theorem row_of_mem_placedLine {row column : Nat} {line : List Cell} {h : Handed}
    (hmem : h ∈ placedLine row column line) : h.row = row ∧ column ≤ h.column := by
  obtain ⟨⟨cell, i⟩, hi, rfl⟩ := List.mem_map.mp hmem
  exact ⟨rfl, (List.mem_zipIdx hi).1⟩

/-- Of a line all cells are left, or the first. -/
theorem filter_isLeft_placedLine {skips : Nat → Bool} (row : Nat) (cell : Cell) (line : List Cell) :
    (placedLine row 0 (cell :: line)).filter (Handed.isLeft skips) =
      if skips row then [⟨row, 0, cell⟩] else placedLine row 0 (cell :: line) := by
  split
  · rename_i hskips
    have hnone : (placedLine row 1 line).filter (Handed.isLeft skips) = [] := by
      rw [List.filter_eq_nil_iff]
      intro h hmem
      obtain ⟨rfl, hle⟩ := row_of_mem_placedLine hmem
      have hne : h.column ≠ 0 := by omega
      simp [Handed.isLeft, hskips, hne]
    rw [placedLine_cons, List.filter_cons, if_pos (by simp [Handed.isLeft]), hnone]
  · rename_i hskips
    rw [List.filter_eq_self]
    intro h hmem
    obtain ⟨rfl, -⟩ := row_of_mem_placedLine hmem
    simp [Handed.isLeft, hskips]

/-- Whether a row begins with a plain character, if it begins with any and it
is not in quotes. -/
def Encoding.BeginsPlain (e : Encoding) (row : Nat) (handed : List Handed) : Prop :=
  ∀ h ∈ handed, h.row = row → h.column = 0 → h.cell.enclosed = false →
    h.cell.text.toList.head?.all e.isPlain

/-- The same cells, but for those of one row, and as many rows. -/
structure AgreeBut (row : Nat) (hs hs' : List Handed) : Prop where
  filter : hs'.filter (·.row != row) = hs.filter (·.row != row)
  count : (hs'.map Handed.column).count 0 = (hs.map Handed.column).count 0

theorem agreeBut_line (row : Nat) (before after : List Handed) (cell cell' : Cell)
    (line line' : List Cell) :
    AgreeBut row (before ++ (placedLine row 0 (cell :: line) ++ after))
      (before ++ (placedLine row 0 (cell' :: line') ++ after)) := by
  have hnone : ∀ line, (placedLine row 0 line).filter (·.row != row) = [] := by
    intro line
    rw [List.filter_eq_nil_iff]
    intro h hmem
    simp [(row_of_mem_placedLine hmem).1]
  constructor
  · simp only [List.filter_append, hnone]
  · simp only [List.map_append, List.count_append, count_column_placedLine]

namespace Dialect

variable {d d' : Dialect} {k : Handing} {e : Encoding} {y : Scanned} {cs ys : List Scanned}

theorem learnsTo_after : d.LearnsTo (d.after k cs) := by
  induction hn : cs.length using Nat.strongRecOn generalizing cs d with
  | _ n ih =>
    subst hn
    have hread : d.LearnsTo (k.read d cs).dialect := learnsTo_readCell ..
    rw [← after_read]
    cases hend : (k.read d cs).ending with
    | inputEnd =>
      rw [show (k.read d cs).rest = [] from rest_eq_nil hend, after_nil]
      exact hread
    | terminator t => exact hread.trans (ih _ (length_rest_lt hend) rfl)

/-- A carriage return that is found to end lines, where CR LF was folded, has
been detected. -/
theorem LearnsTo.detects_cr (h : d.LearnsTo d') (hf : d.folds) (hcr : d'.lineEnd = .char '\r') :
    d.lineEnd = .auto ∧ d.keepsCrLf = false := by
  have hkeeps : d.keepsCrLf = false := by
    rw [folds, Bool.and_eq_true] at hf
    simpa using hf.1
  refine ⟨?_, hkeeps⟩
  rcases h.lineEnd with hl | ⟨hl, -⟩
  · rw [hcr] at hl
    simp [folds, hl] at hf
  · exact hl

/-- A cell goes on with a character that is not plain, if it begins with one. -/
theorem readCell_of_not_plain (hd : d.PlainIn e) (hy : ¬ e.isPlain y.char) :
    (k.read d (y :: ys)).enclosed = false ∧ (k.read d (y :: ys)).kept.head? = some y := by
  have hnaked : k.read d (y :: ys) = d.readNaked k.stop y ys := by
    rw [Handing.read, readCell, readFirst_of_not_plain e.isPlain_whitespace hy]
    dsimp only
    rw [readFrom, hd.lines.opens?_eq_none hy]
  rw [hnaked]
  refine ⟨enclosed_readNaked .., ?_⟩
  rw [readNaked, hd.terminator?_eq_none hy]
  dsimp only
  split <;> rfl

end Dialect

namespace Encoding.Recasts

variable {d : Dialect} {k : Handing} {e : Encoding} {cs ys : List Scanned} {row : Nat}

/-- The row that begins with such characters shows it. -/
theorem not_beginsPlain (h : e.Recasts k.stop cs ys) (hd : d.PlainIn e)
    (hk : k.strategy.keepsChars) : ¬ e.BeginsPlain row (numbered row 0 (d.pulledFrom k cs)) := by
  intro hbegins
  cases h with
  | @mk c x block rest ys hc hxs hx h =>
    have hnot := (List.forall_mem_cons.mp hxs).1
    let p := k.read d (x :: (block ++ rest))
    obtain ⟨henclosed, hkept⟩ : p.enclosed = false ∧ p.kept.head? = some x :=
      Dialect.readCell_of_not_plain hd hnot
    have hmem : ⟨row, 0, p.cell k (x :: (block ++ rest))⟩ ∈
        numbered row 0 (d.pulledFrom k (x :: (block ++ rest))) := by
      rw [Dialect.numbered_pulledFrom (fun _ c hc => Option.some.inj hc ▸ hx) (by simp)]
      exact List.mem_cons_self ..
    have hcell := CellRead.cell_eq hk p (x :: (block ++ rest))
    have hfirst := hbegins _ hmem rfl rfl (by rw [hcell]; exact henclosed)
    rw [hcell, String.toList_ofList, List.head?_map, hkept] at hfirst
    exact hnot hfirst

theorem after_eq (h : e.Recasts k.stop cs ys) (hd : d.LinesPlainIn e) :
    d.after k ys = d.after k cs := by
  rw [← Dialect.after_line, h.line_eq hd, Dialect.after_line]

/-- But for its cells, there is no difference. -/
theorem agreeBut (h : e.Recasts k.stop cs ys) (hd : d.LinesPlainIn e)
    (hys : ∀ y ∈ ys.head?, y.span.start < k.stop) (row : Nat) (before : List Handed) :
    AgreeBut row (before ++ numbered row 0 (d.pulledFrom k cs))
      (before ++ numbered row 0 (d.pulledFrom k ys)) := by
  have hcs : ∀ c ∈ cs.head?, c.span.start < k.stop := by
    cases h with
    | mk hc hxs hx h => exact fun c hc => Option.some.inj hc ▸ hx
  obtain ⟨hne, hne'⟩ : cs ≠ [] ∧ ys ≠ [] := by
    cases h with
    | mk => exact ⟨by simp, by simp⟩
  obtain ⟨line, hline⟩ := d.numbered_line row (fun _ => hcs) fun hcond => hne hcond.1
  obtain ⟨line', hline'⟩ := d.numbered_line row (fun _ => hys) fun hcond => hne' hcond.1
  rw [hline, hline', h.line_eq hd]
  exact agreeBut_line ..

end Encoding.Recasts

namespace Reader

variable {r r' : Reader} {judge judge' : Judge} {row column : Nat} {mode : LineMode}

/-! ### Verdicts -/

/-- A row is read as the verdicts on its cells say. -/
theorem readCells_congr (h : ∀ column cell, judge row column cell = judge' row column cell) :
    r.readCells judge row column mode = r.readCells judge' row column mode := by
  have hpresent : ∀ (column : Nat) (mode : LineMode) (r : Reader),
      r.present judge row column mode = r.present judge' row column mode := by
    intro column mode r
    cases mode with
    | handing => rw [present, present, h]
    | skipping | stopped => rfl
  fun_induction readCells judge row column mode r with
  | case1 column mode r e t ht => rw [readCells, ht]
  | case2 column mode r ending t ht he =>
    rw [readCells, ht]
    exact (if_pos he).symm
  | case3 column mode r ending t ht he p hp =>
    rw [readCells, ht]
    dsimp only
    rw [if_neg he, ← hpresent, if_pos hp]
  | case4 column mode r t p hp ht he ih =>
    have hgoes : r.readCells judge' row column mode =
        p.2.readCells judge' row (column + 1) p.1 := by
      rw [readCells, ht]
      dsimp only
      rw [if_neg he, ← hpresent, if_neg hp, if_pos rfl]
    rw [hgoes, ih]
  | case5 column mode r ending t ht he p hp hs =>
    rw [readCells, ht]
    dsimp only
    rw [if_neg he, ← hpresent, if_neg hp, if_neg hs]

/-! ### The line end -/

theorem lineEnd_readNaked {c : Scanned} {n : Nat}
    (h : r.readNaked c = .ok (.terminator .lineEnd, n) r') : r'.dialect.lineEnd ≠ .auto := by
  fun_induction readNaked c r with
  | case1 c r t dialect ht =>
    obtain ⟨hend, rfl⟩ := EStateM.Result.ok.inj h
    obtain rfl : t = .lineEnd := by simpa using congrArg Prod.fst hend
    simp [Dialect.lineEnd_of_terminator? ht]
  | case2 => simp at h
  | case3 => simp at h
  | case4 c r ht d t hn ih => exact ih h

theorem lineEnd_readEnclosed {q : Char} {n : Nat}
    (h : r.readEnclosed q = .ok (.terminator .lineEnd, n) r') : r'.dialect.lineEnd ≠ .auto := by
  fun_induction readEnclosed q r with
  | case1 | case2 | case4 | case5 => simp at h
  | case3 r c t hn hc ih => exact ih h
  | case6 r c t hn hc d u hn' hd ih => exact ih h
  | case7 r c t hn hc d u hn' hd => exact lineEnd_readNaked h

/-- What ends a line is known from then on. -/
theorem lineEnd_readCell (h : r.readCell = .ok (.terminator .lineEnd) r') :
    r'.dialect.lineEnd ≠ .auto := by
  rw [readCell] at h
  split at h
  · simp at h
  · simp at h
  · split at h
    · simp at h
    · rename_i t ending n t' hfrom
      obtain ⟨rfl, rfl⟩ := EStateM.Result.ok.inj h
      rw [readFrom] at hfrom
      split at hfrom
      · exact (lineEnd_readEnclosed hfrom :)
      · exact (lineEnd_readNaked hfrom :)

theorem phase_present_or (judge : Judge) (row column : Nat) (mode : LineMode) (r : Reader) :
    (r.present judge row column mode).2.phase = r.phase ∨
      (r.present judge row column mode).2.phase = .stopped := by
  cases mode with
  | handing =>
    rw [present]
    cases LineMode.ofVerdict (judge row column r.cell) with
    | handing | skipping => exact .inl rfl
    | stopped => exact .inr rfl
  | skipping | stopped => exact .inl rfl

theorem lineEnd_readCells {found : Bool} (h : r.readCells judge row column mode = .ok found r')
    (hphase : r'.phase = .lineEnd) : r'.dialect.lineEnd ≠ .auto := by
  have hcell : ∀ {r t : Reader} {ending : CellEnd}, r.readCell = .ok ending t →
      ∀ (column : Nat) (mode : LineMode),
        (t.present judge row column mode).2.phase = .lineEnd →
          (t.present judge row column mode).2.dialect.lineEnd ≠ .auto := by
    intro r t ending ht column mode hphase
    rw [dialect_present]
    rcases phase_present_or judge row column mode t with hp | hp
    · rw [hp, readCell_phase ht] at hphase
      rcases ending with (_ | _) | _
      · exact Phase.noConfusion hphase
      · exact lineEnd_readCell ht
      · exact Phase.noConfusion hphase
    · rw [hp] at hphase
      exact Phase.noConfusion hphase
  fun_induction readCells judge row column mode r with
  | case1 => simp at h
  | case2 column mode r ending t ht he =>
    obtain ⟨-, rfl⟩ := EStateM.Result.ok.inj h
    rw [readCell_phase ht, he.1] at hphase
    exact Phase.noConfusion hphase
  | case3 column mode r ending t ht he p hp =>
    obtain ⟨-, rfl⟩ := EStateM.Result.ok.inj h
    exact hcell ht column mode hphase
  | case4 column mode r t p hp ht he ih => exact ih h
  | case5 column mode r ending t ht he p hp hs =>
    obtain ⟨-, rfl⟩ := EStateM.Result.ok.inj h
    split at hphase
    · exact Phase.noConfusion hphase
    · rename_i hmode
      rw [if_neg hmode]
      exact hcell ht column mode hphase

/-! ### Lines that are passed over -/

/-- A reader between two cells of a line that it passes over, in a text that is
read unit by unit. -/
structure Passes (r : Reader) (origin d : Dialect) (e : Encoding) (bytes : List UInt8)
    (xs : List Scanned) : Prop where
  skims : r.Skims origin e bytes xs
  dialect : r.dialect = d
  viewed : r.viewed = bytes
  /-- Nothing of an earlier cell matters. -/
  clear : r.buffer.clear = .empty

namespace Passes

variable {origin d : Dialect} {e : Encoding} {bytes : List UInt8} {xs : List Scanned}

/-- One cell. -/
theorem readCell (h : r.Passes origin d e bytes xs) (hplain : origin.LinesPlainIn e) :
    ∃ ending r', r.readCell = .ok ending r' ∧
      r'.Skimmed origin e bytes ending (d.line (.units e bytes) xs) ∧ r'.viewed = bytes ∧
      r'.buffer.clear = .empty ∧ r'.phase = ending.phase ∧ r'.handed = r.handed := by
  obtain ⟨hskims, rfl, hviewed, hclear⟩ := h
  have hwhite : r.buffer.whitespace = CellBuffer.empty.whitespace := by
    rw [← hclear]
    rfl
  obtain ⟨ending, r', hread, hskimmed⟩ := hskims.readCell hplain hwhite
  -- What is left of the buffer does not depend on the characters.
  obtain ⟨ys, hys⟩ := hskims.chars.within.exists_gives .discard
  let k : Handing := ⟨.discard, e, bytes, bytes.length⟩
  have hfaces : r.Faces k.encoding k.stop ys := ⟨hskims.strategy ▸ hys, hskims.encoding⟩
  obtain ⟨r'', hread', hhas⟩ :=
    hfaces.exists_hasRead hviewed hclear (.inl (hskims.strategy ▸ Strategy.noConfusion))
  obtain ⟨-, rfl⟩ := EStateM.Result.ok.inj (hread.symm.trans hread')
  exact ⟨ending, r', hread, hskimmed, hhas.viewed, hhas.clear, readCell_phase hread, hhas.handed⟩

/-- The line comes to its end. -/
theorem readCells (h : r.Passes origin d e bytes xs) (hplain : origin.LinesPlainIn e)
    (judge : Judge) (row : Nat) {column : Nat} (hcolumn : column ≠ 0) :
    let o := d.line (.units e bytes) xs
    ∃ r', r.readCells judge row column (.skipping false) = .ok true r' ∧
      r'.Passes origin o.dialect e bytes o.rest ∧ r'.Resumes origin e bytes o.rest ∧
      r'.phase = o.ending.phase ∧ r'.handed = r.handed := by
  -- On what is still to be decoded, of which a separator takes some.
  induction hn : r.left using Nat.strongRecOn generalizing xs r d column with
  | _ n ih =>
    subst hn
    obtain ⟨ending, r', hread, hskimmed, hviewed, hclear, hphase, hhanded⟩ := h.readCell hplain
    rw [Poised.readCells_skipping false hread hcolumn, afterCell]
    generalize d.line (.units e bytes) xs = o at hskimmed ⊢
    cases hskimmed with
    | separator hskims =>
      have hlt := (readCell_ok hread).2 (by simp)
      obtain ⟨r'', hcells, hr'', hresumes, hphase', hhanded'⟩ :=
        ih _ hlt ⟨hskims, rfl, hviewed, hclear⟩ (Nat.succ_ne_zero column) rfl
      rw [if_pos rfl]
      exact ⟨r'', hcells, hr'', hresumes, hphase', hhanded'.trans hhanded⟩
    | ended hend hskims hresumes =>
      rw [if_neg hend]
      exact ⟨r', rfl, ⟨hskims, rfl, hviewed, hclear⟩, hresumes, hphase, hhanded⟩

/-- Once its characters can be looked at again, the reader is between two cells
that it hands over.  They are as they look, unless the first of them has been
decoded. -/
theorem exists_between (h : r.Passes origin d e bytes xs)
    (hresumes : r.Resumes origin e bytes xs) :
    ∃ ys, Between (account { r with strategy := .raw }) d (.units e bytes) ys ∧
      (ys = xs ∨ origin.folds ∧ d.lineEnd = .char '\r' ∧ e.Recasts bytes.length xs ys) := by
  have hbetween {ys : List Scanned} (hg : r.chars.Gives .raw bytes.length ys) :
      Between (account { r with strategy := .raw }) d (.units e bytes) ys :=
    ⟨⟨hg, h.skims.encoding⟩, h.dialect, h.viewed, rfl, h.clear, .inl Strategy.noConfusion⟩
  rcases hresumes with hg | ⟨hfolds, hcr, ys, hg, hrecasts⟩
  · exact ⟨xs, hbetween hg, .inl rfl⟩
  · exact ⟨ys, hbetween hg, .inr ⟨hfolds, h.dialect ▸ hcr, hrecasts⟩⟩

end Passes

theorem lineOver_of_line {d : Dialect} {k : Handing} {xs : List Scanned}
    (hphase : r.phase = (d.line k xs).ending.phase) : r.LineOver xs (d.line k xs).rest := by
  rcases d.line_over k xs with ⟨hend, hnil⟩ | ⟨hend, hlt⟩
  · exact .inl ⟨by rw [hphase, hend]; rfl, hnil⟩
  · exact .inr ⟨by rw [hphase, hend]; rfl, hlt⟩

/-- What the row leaves of what looks like `xs`.  The first of it may have been
decoded, if a line that was passed over has just shown that carriage returns end
lines. -/
def LeavesAs (skips : Nat → Bool) (row : Nat) (d d' : Dialect) (e : Encoding)
    (bytes : List UInt8) (xs ys : List Scanned) : Prop :=
  ys = xs ∨ skips row ∧ d.folds ∧ d'.lineEnd = .char '\r' ∧ e.Recasts bytes.length xs ys

namespace Between

variable {d : Dialect} {e : Encoding} {bytes : List UInt8} {xs : List Scanned} {skips : Nat → Bool}

/-- Of a line that is passed over the first cell is handed over. -/
theorem readCells_skipLine (h : r.Between d (.units e bytes) xs) (hw : r.chars.Within bytes)
    (hplain : d.LinesPlainIn e) (hxs : xs ≠ []) (hj : ∀ cell, judge row 0 cell = .skipLine) :
    let k := Handing.units e bytes
    let o := d.line k xs
    ∃ r', r.readCells judge row 0 .handing = .ok true r' ∧ r'.Passes d o.dialect e bytes o.rest ∧
      r'.Resumes d e bytes o.rest ∧ r'.phase = o.ending.phase ∧
      r'.handed = ⟨row, 0, (k.read d xs).cell k xs⟩ :: r.handed := by
  intro k o
  have hne : ¬ (xs = [] ∧ (0 : Nat) = 0) := fun hcond => hxs hcond.1
  obtain ⟨t, hread, ht, hcell, hphase, hhanded⟩ := h.readCell
  have hmode : LineMode.ofVerdict (judge row 0 t.cell) = .skipping false := by rw [hj]; rfl
  rw [Poised.readCells_handing (.skipping false) hread (h.not_ended ht hne) hmode,
    if_neg LineMode.noConfusion]
  let u := (t.handOver row 0).heed (.skipping false)
  have hgives : u.chars.Gives .raw bytes.length (k.read d xs).rest := by
    have hg := ht.faces.gives
    rwa [ht.strategy] at hg
  have hwithin : u.chars.Within bytes :=
    (succeeds_readCell (Chars.keeps_bytes bytes) hread hw :)
  have hlearns : d.LearnsTo u.dialect := by
    rw [show u.dialect = _ from ht.dialect]
    exact Dialect.learnsTo_readCell ..
  have hu : u.Passes d (k.read d xs).dialect e bytes (k.read d xs).rest :=
    ⟨⟨hgives.trails hwithin, ht.faces.encoding, rfl, hlearns⟩, ht.dialect, ht.viewed, ht.clear⟩
  have hg : u.handed = ⟨row, 0, (k.read d xs).cell k xs⟩ :: r.handed :=
    congrArg₂ List.cons (congrArg (Handed.mk row 0) hcell) hhanded
  rw [afterCell]
  by_cases hend : (k.read d xs).ending = .terminator .separator
  · obtain ⟨r', hcells, hr', hresumes, hphase', hhanded'⟩ :=
      hu.readCells hplain judge row (Nat.succ_ne_zero 0)
    rw [if_pos hend, show o = _ from Dialect.line_of_separator hend]
    exact ⟨r', hcells, hr', hresumes, hphase', hhanded'.trans hg⟩
  · rw [if_neg hend, show o = _ from Dialect.line_of_over hend]
    exact ⟨u, rfl, hu, .inl hgives, hphase, hg⟩

/-- One row, whether it is passed over or not. -/
theorem readRow_skipping (h : r.Between d (.units e bytes) xs) (hw : r.chars.Within bytes)
    (hplain : d.LinesPlainIn e) (hxs : xs ≠ []) (skips : Nat → Bool) (row : Nat) :
    let k := Handing.units e bytes
    ∃ r' d' rest ys line, r.readRow (.skipping skips) row = .ok true r' ∧
      LineRead r r' k (Handed.isLeft skips) row d xs d' rest line ∧ r'.Between d' k ys ∧
      LeavesAs skips row d d' e bytes rest ys ∧ r'.chars.Within bytes ∧
      (r'.phase = .lineEnd → d'.lineEnd ≠ .auto) := by
  intro k
  rw [Reader.readRow]
  by_cases hskips : skips row
  · have hj : ∀ cell, Judge.skipping skips row 0 cell = .skipLine := fun _ => if_pos ⟨rfl, hskips⟩
    obtain ⟨r', hcells, hr', hresumes, hphase, hhanded⟩ :=
      h.readCells_skipLine hw hplain hxs hj
    obtain ⟨line, hnumbered⟩ := d.numbered_line row (fun _ => h.head_lt)
      fun hcond => hxs hcond.1
    obtain ⟨ys, hbetween, hleaves⟩ := hr'.exists_between hresumes
    rw [hcells]
    refine ⟨_, _, _, ys, _ :: line, rfl,
      ⟨Dialect.after_line, lineOver_of_line hphase, by simp, ?_, hnumbered⟩,
      h.strategy ▸ hbetween, hleaves.imp_right fun hrecasts => ⟨hskips, hrecasts⟩,
      hr'.skims.chars.within, fun hend => hr'.dialect ▸ lineEnd_readCells hcells hend⟩
    rw [filter_isLeft_placedLine, if_pos hskips]
    exact hhanded
  · have hj : ∀ column cell, Judge.skipping skips row column cell = Judge.always row column cell :=
      fun _ _ => if_neg fun hcond => hskips hcond.2
    obtain ⟨r', d', rest, line, hcells, hr', hafter, hline, hne, hhanded, hnumbered⟩ :=
      h.readCells row 0 fun hcond => hxs hcond.1
    obtain ⟨cell, line, rfl⟩ := List.exists_cons_of_ne_nil hne
    rw [readCells_congr hj, hcells]
    refine ⟨_, d', rest, rest, cell :: line, rfl, ⟨hafter, hline, hne, ?_, hnumbered⟩,
      hr'.congr rfl rfl (h.strategy.trans hr'.strategy.symm) rfl rfl, .inl rfl,
      succeeds_readCells (Chars.keeps_bytes bytes) hcells hw,
      fun hphase => hr'.dialect ▸ lineEnd_readCells hcells hphase⟩
    rw [filter_isLeft_placedLine, if_neg hskips]
    exact hhanded

/-- Once the line end is known, what is passed over makes no difference to the
rows after it. -/
theorem readRows_skipping_known (h : r.Between d (.units e bytes) xs) (hw : r.chars.Within bytes)
    (hp : r.phase.isFinal = false) (hplain : d.LinesPlainIn e) (hknown : d.lineEnd ≠ .auto)
    (skips : Nat → Bool) (row : Nat) :
    let k := Handing.units e bytes
    ∃ r' lines, r.readRows (.skipping skips) row = .ok (row + lines.length) r' ∧
      r'.Between (d.after k xs) k [] ∧ (∀ line ∈ lines, line ≠ []) ∧
      r'.handed = ((placedLines row lines).filter (Handed.isLeft skips)).reverse ++ r.handed ∧
      numbered row 0 (d.pulledFrom k xs) = placedLines row lines := by
  intro k
  let Ready (r : Reader) (d : Dialect) (_ : List Scanned) (_ : Nat) : Prop :=
    r.chars.Within bytes ∧ d.LinesPlainIn e ∧ d.lineEnd ≠ .auto
  refine readRows_of_readRow (motive := Ready) ?_ h hp ⟨hw, hplain, hknown⟩
  rintro r d xs row h ⟨hw, hplain, hknown⟩ hxs
  obtain ⟨r', d', rest, ys, line, hread, hline, hbetween, hleaves, hw', hknown'⟩ :=
    h.readRow_skipping hw hplain hxs skips row
  have hlearns : d.LearnsTo d' := by
    rw [← h.dialect, ← hbetween.dialect]
    exact learns_readRow hread
  obtain rfl : ys = rest := hleaves.resolve_right
    fun ⟨_, hfolds, hcr, _⟩ => hknown (hlearns.detects_cr hfolds hcr).1
  exact ⟨r', d', ys, line, hread, ⟨hline, hbetween⟩,
    fun hphase => ⟨hw', hplain.learns hlearns, hknown' hphase⟩⟩

/-- The rows of a text, of which some are passed over.  They are those that are
told if none is, but for the second, the first character of which may have been
decoded. -/
theorem readRows_skipping (h : r.Between d (.units e bytes) xs) (hw : r.chars.Within bytes)
    (hp : r.phase.isFinal = false) (hplain : d.LinesPlainIn e) (skips : Nat → Bool) :
    let k := Handing.units e bytes
    let told := numbered 0 0 (d.pulledFrom k xs)
    ∃ r' lines, r.readRows (.skipping skips) 0 = .ok lines.length r' ∧
      r'.Between (d.after k xs) k [] ∧ (∀ line ∈ lines, line ≠ []) ∧
      r'.handed = ((placedLines 0 lines).filter (Handed.isLeft skips)).reverse ++ r.handed ∧
      (placedLines 0 lines = told ∨
        skips 0 ∧ d.lineEnd = .auto ∧ d.keepsCrLf = false ∧
          (d.after k xs).lineEnd = .char '\r' ∧ AgreeBut 1 told (placedLines 0 lines) ∧
            (d.PlainIn e → ¬ e.BeginsPlain 1 told)) := by
  intro k told
  by_cases hxs : xs = []
  · subst hxs
    obtain ⟨r', hread, hr', hphase, hhanded⟩ := h.readRow_nil (.skipping skips) 0
    rw [readRows_readRow hp hread, Dialect.after_nil,
      show told = [] from Dialect.numbered_pulledFrom_nil]
    exact ⟨r', [], readRows_inputEnd 0 hphase, hr', by simp, hhanded, .inl rfl⟩
  obtain ⟨t, d', rest, ys, line, hread, hline, hbetween, hleaves, hw', hknown⟩ :=
    h.readRow_skipping hw hplain hxs skips 0
  have hlearns : d.LearnsTo d' := by
    rw [← h.dialect, ← hbetween.dialect]
    exact learns_readRow hread
  rw [readRows_readRow hp hread, if_pos rfl, ← hline.after,
    show told = _ from hline.numbered]
  rcases hline.ended with ⟨hphase, rfl⟩ | ⟨hphase, -⟩
  · -- The row was the last.
    obtain rfl : ys = [] := hleaves.resolve_right fun ⟨_, _, _, hrecasts⟩ => nomatch hrecasts
    rw [Dialect.after_nil, Dialect.numbered_pulledFrom_nil]
    refine ⟨t, [line], readRows_inputEnd _ hphase, hbetween, by simpa using hline.ne_nil, ?_,
      .inl rfl⟩
    rw [hline.handed]
    simp [placedLines]
  · obtain ⟨r', lines, hread', hr', hlines, hhanded, hnumbered⟩ :=
      hbetween.readRows_skipping_known hw' (by rw [hphase]; rfl) (hplain.learns hlearns)
        (hknown hphase) skips 1
    have hplaced : placedLines 0 (line :: lines) =
        placedLine 0 0 line ++ numbered 1 0 (d'.pulledFrom k ys) := by
      rw [placedLines_cons, hnumbered]
    have hall : r'.handed =
        ((placedLines 0 (line :: lines)).filter (Handed.isLeft skips)).reverse ++ r.handed := by
      rw [hhanded, placedLines_cons, List.filter_append, List.reverse_append, List.append_assoc,
        ← hline.handed]
    have hlines : ∀ l ∈ line :: lines, l ≠ [] :=
      List.forall_mem_cons.mpr ⟨hline.ne_nil, hlines⟩
    rw [hread', Nat.add_comm 1]
    rcases hleaves with rfl | ⟨hskips, hfolds, hcr, hrecasts⟩
    · exact ⟨r', line :: lines, rfl, hr', hlines, hall, .inl hplaced⟩
    · obtain ⟨hauto, hkeeps⟩ := hlearns.detects_cr hfolds hcr
      have hcr' : (d'.after k rest).lineEnd = .char '\r' := by
        have hafter : d'.LearnsTo (d'.after k rest) := Dialect.learnsTo_after
        have hstays := hafter.lineEnd
        rw [hcr] at hstays
        exact hstays.eq_of_char
      have hrecasts : e.Recasts k.stop rest ys := hrecasts
      refine ⟨r', line :: lines, rfl, hrecasts.after_eq (hplain.learns hlearns) ▸ hr', hlines, hall,
        .inr ⟨hskips, hauto, hkeeps, hcr', ?_, fun hd hbegins => ?_⟩⟩
      · rw [hplaced]
        exact hrecasts.agreeBut (hplain.learns hlearns) hbetween.head_lt 1 _
      · exact hrecasts.not_beginsPlain (hd.learns hlearns) rfl
          fun g hg => hbegins g (List.mem_append_right _ hg)

/-- The same, of what comes out. -/
theorem outcome_skipping (h : r.Between d (.units e bytes) xs) (hw : r.chars.Within bytes)
    (hp : r.phase.isFinal = false) (hh : r.handed = []) (hplain : d.LinesPlainIn e)
    (skips : Nat → Bool) :
    let left := (r.outcome .always).handed.filter (Handed.isLeft skips)
    ∃ s, (r.outcome (.skipping skips)).result = .ok s ∧ (r.outcome .always).result = .ok s ∧
      (r.outcome (.skipping skips)).handed.filter (·.row != 1) = left.filter (·.row != 1) ∧
      ((skips 0 → d.lineEnd = .auto → d.keepsCrLf = false → s.lineEnd = .char '\r' →
          d.PlainIn e ∧ e.BeginsPlain 1 (r.outcome .always).handed) →
        (r.outcome (.skipping skips)).handed = left) := by
  let k := Handing.units e bytes
  let told := numbered 0 0 (d.pulledFrom k xs)
  obtain ⟨t, lines, hread, hlines, hhanded, hnumbered⟩ := h.read hp hh
  obtain ⟨t', lines', hread', hbetween', hlines', hhanded', hcases⟩ :=
    h.readRows_skipping hw hp hplain skips
  have hagree : AgreeBut 1 told (placedLines 0 lines') :=
    hcases.elim (fun hsame => hsame ▸ ⟨rfl, rfl⟩) fun hcase => hcase.2.2.2.2.1
  -- As many rows are read, as a row is told by its first cell.
  have hcount : lines'.length = lines.length := by
    rw [← count_column_placedLines hlines 0, ← count_column_placedLines hlines' 0, hagree.count,
      ← hnumbered]
  have halways : r.outcome .always =
      ⟨told, .ok (k.summary (d.after k xs) lines.length), t.progress⟩ := by
    rw [outcome, hread]
    dsimp only
    rw [hhanded, ← hnumbered]
  have hskipping : r.outcome (.skipping skips) =
      ⟨(placedLines 0 lines').filter (Handed.isLeft skips),
        .ok (k.summary (d.after k xs) lines.length), t'.progress⟩ := by
    rw [outcome, read_of_readRows (Judge.not_stops_skipping skips) hp hread' hbetween']
    dsimp only
    rw [hhanded', hh, List.append_nil, List.reverse_reverse, hcount]
  rw [halways, hskipping]
  refine ⟨_, rfl, rfl, ?_, fun hbegins => ?_⟩
  · rw [List.filter_comm, hagree.filter, List.filter_comm]
  · rcases hcases with hsame | ⟨hskips, hauto, hkeeps, hcr, -, hnot⟩
    · rw [hsame]
    · obtain ⟨hd, hb⟩ := hbegins hskips hauto hkeeps hcr
      exact absurd hb (hnot hd)

end Between

end Reader

/-! ### Texts in memory -/

/-- Passing over lines of a text that is read unit by unit makes no difference
to the others, as long as what tells where lines end is plain.  Only if the first
line is passed over, and a carriage return is found to end it, may the second be
told in other cells; it is not if all that the format heeds is plain and it
begins with a plain character as well.  And the same is said of the text. -/
theorem readBytes_skipping {o : ReadOptions} (bytes : List UInt8) {f : Format}
    (hs : o.strategy = some .raw) (skips : Nat → Bool) :
    let e := (f.encoding.resolve (bytes.take 4)).1
    let read (judge : Judge) := readBytes bytes f o judge
    let left := (read .always).handed.filter (Handed.isLeft skips)
    f.toDialect.LinesPlainIn e →
    ∃ s, (read (.skipping skips)).result = .ok s ∧ (read .always).result = .ok s ∧
      (read (.skipping skips)).handed.filter (·.row != 1) = left.filter (·.row != 1) ∧
      ((skips 0 → f.lineEnd = .auto → f.keepsCrLf = false → s.lineEnd = .char '\r' →
          f.toDialect.PlainIn e ∧ e.BeginsPlain 1 (read .always).handed) →
        (read (.skipping skips)).handed = left) := by
  intro e read left hplain
  obtain ⟨start, hr⟩ : ∃ start, f.encoding.resolve (bytes.take 4) = (e, start) := ⟨_, rfl⟩
  have hstrategy : o.strategy.getD .decode = .raw := by rw [hs]; rfl
  obtain ⟨xs, hxs⟩ := Reader.exists_between_ofBytes (o := o) e (Encoding.start_le_of_resolve hr)
    (by rw [hstrategy]; rfl)
  obtain ⟨r, hof, hphase, hhanded, hbetween⟩ := hxs f hr
  rw [hstrategy] at hbetween
  have hwithin : r.chars.Within bytes := by
    obtain ⟨units, hof', hunits, -⟩ := Reader.exists_within (o := o) hr (by rw [hstrategy]; rfl)
    obtain rfl := Except.ok.inj (hof.symm.trans hof')
    exact ⟨hunits, by simp [Reader.fresh]⟩
  have hread : ∀ judge, read judge = r.outcome judge := by
    intro judge
    have hsplit : o.allowBytewise = false := by simp [ReadOptions.allowBytewise, hs]
    show readBytes bytes f o judge = _
    rw [readBytes, hr]
    dsimp only
    rw [hsplit, Bool.false_and, if_neg Bool.false_ne_true, hof]
    rfl
  rw [show left = _ from congrArg (fun out : Outcome => out.handed.filter (Handed.isLeft skips))
    (hread .always), hread .always, hread (.skipping skips)]
  exact hbetween.outcome_skipping hwithin hphase hhanded hplain skips

/-- Lines that carriage returns end, which the first of them shows.  Where that
line is passed over, the character after the carriage return is decoded, which
the second line does not tell, as it begins with ASCII. -/
theorem readBytes_skipping_cr :
    let bytes := "a,é\rb,é\rc,é".toUTF8.toList
    let f : Format := { Format.csv with lineEnd := .auto }
    let o : ReadOptions := { strategy := some .raw }
    let skips : Nat → Bool := fun row => row != 1
    let e := (f.encoding.resolve (bytes.take 4)).1
    let read (judge : Judge) := readBytes bytes f o judge
    o.strategy = some .raw ∧ f.toDialect.PlainIn e ∧
      (read .always).result.toOption.map Summary.lineEnd = some (.char '\r') ∧
      e.BeginsPlain 1 (read .always).handed ∧
      (read (.skipping skips)).handed.map Handed.told =
        [(0, 0, "a", false), (1, 0, "b", false), (1, 1, "Ã©", false), (2, 0, "c", false)] := by
  intro bytes f o skips e read
  have hplain : f.toDialect.PlainIn e := by
    refine ⟨?_, ?_, ?_⟩ <;> rintro c ⟨⟩
    · exact e.isPlain_ascii (by decide) (by decide)
    · exact e.isPlain_ascii (by decide) (by decide)
  have hbegins : e.BeginsPlain 1 (read .always).handed := by
    unfold Encoding.BeginsPlain
    decide +kernel
  obtain ⟨_, -, -, -, hsame⟩ := readBytes_skipping (o := o) bytes rfl skips hplain.lines
  have hhanded : (read (.skipping skips)).handed =
      (read .always).handed.filter (Handed.isLeft skips) := hsame fun _ _ _ _ => ⟨hplain, hbegins⟩
  refine ⟨rfl, hplain, by decide +kernel, hbegins, ?_⟩
  rw [hhanded]
  decide +kernel

/-- Where the second line begins with a longer character, it is told as it was
decoded if the first line is passed over: here in one cell, as a byte of that
character separates cells where it is read by itself.  The third line is told
alike. -/
example :
    let f : Format :=
      { Format.csv with separator := .char 'Ã', enclosing := .off, lineEnd := .auto }
    let read (judge : Judge) :=
      readBytes "aéb\ré\rcé".toUTF8.toList f { strategy := some .raw } judge
    (read .always).handed.map Handed.told =
        [(0, 0, "a", false), (0, 1, "©b", false), (1, 0, "", false), (1, 1, "©", false),
          (2, 0, "c", false), (2, 1, "©", false)] ∧
      (read (.skipping fun row => row == 0)).handed.map Handed.told =
        [(0, 0, "a", false), (1, 0, "é", false), (2, 0, "c", false), (2, 1, "©", false)] := by
  decide +kernel

end Tabular
