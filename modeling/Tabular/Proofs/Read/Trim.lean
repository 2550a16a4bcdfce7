/-
Trimming only trims.

* `Dialect.untrimmed` — a dialect in which whitespace at the start of a cell
  stays;
* `Dialect.readCell_untrimmed` — without quotes, the cell that characters begin
  with is the same in both, but for the whitespace that it begins with;
* `Trimming` — the same characters, in a dialect that trims and in one that
  does not;
* `keepsStep_trimming` — they are read in step;
* `readBytes_trims` — so a text comes to the same cells, trimmed or not, and the
  same is said of it.

Design notes: whitespace may be what separates cells, and then it is detected
where it is passed over.  The character that ends the whitespace is looked at
again, and ends the cell again, because what has been detected stays.
-/
import Tabular.Proofs.Read.Detect
import Tabular.Proofs.Read.Parallel
import Tabular.Proofs.Read.Retold

namespace Tabular

namespace Dialect

/-- The dialect, in which whitespace at the start of a cell stays. -/
def untrimmed (d : Dialect) : Dialect := { d with trims := false }

@[simp] theorem folds_untrimmed (d : Dialect) : d.untrimmed.folds = d.folds := rfl

theorem terminator?_untrimmed (d : Dialect) (c : Char) :
    d.untrimmed.terminator? c = (d.terminator? c).map fun (t, d) => (t, d.untrimmed) := by
  cases hs : d.separator.accepts Delimiter.separatorCandidates c <;>
    cases hl : d.lineEnd.accepts Delimiter.lineEndCandidates c <;>
    simp [terminator?, untrimmed, hs, hl]

/-- A character that ends a cell does so again. -/
theorem terminator?_again {d d' : Dialect} {c : Char} {t : Terminator}
    (h : d.terminator? c = some (t, d')) : d'.terminator? c = some (t, d') :=
  (LearnsTo.of_terminator h).terminator?_eq_some h (.refl d')

theorem opens?_off {d : Dialect} (h : d.enclosing = .off) (c : Char) : d.opens? c = none := by
  rw [opens?, h]
  rfl

end Dialect

namespace CellRead

/-- The cell, in a dialect that does not trim. -/
def untrimmed (p : CellRead) : CellRead := { p with dialect := p.dialect.untrimmed }

/-- The cell without the whitespace that it begins with. -/
def dropping (whitespace : List Char) (p : CellRead) : CellRead :=
  { p with kept := p.kept.dropWhile fun c => whitespace.contains c.char }

theorem dropping_keep (whitespace : List Char) (c : Scanned) (p : CellRead) :
    (p.keep c).dropping whitespace =
      if whitespace.contains c.char then p.dropping whitespace else p.keep c := by
  rw [dropping, keep, List.dropWhile_cons]
  split <;> rfl

end CellRead

namespace Dialect

variable {d : Dialect} (stop : Nat) {whitespace : List Char}

/-- Once a cell has begun nothing is trimmed. -/
theorem readNaked_untrimmed (c : Scanned) (cs : List Scanned) :
    (d.readNaked stop c cs).untrimmed = d.untrimmed.readNaked stop c cs := by
  fun_induction readNaked d stop c cs with
  | case1 c cs t d' ht =>
    rw [readNaked, terminator?_untrimmed, ht]
    rfl
  | case2 c cs ht hnone =>
    rw [readNaked, terminator?_untrimmed, ht]
    dsimp only [Option.map_none]
    rw [folds_untrimmed, hnone]
    rfl
  | case3 c cs ht c' cs' hsome ih =>
    have hgoes : d.untrimmed.readNaked stop c cs =
        (d.untrimmed.readNaked stop c' cs').keep c := by
      rw [readNaked, terminator?_untrimmed, ht]
      dsimp only [Option.map_none]
      rw [folds_untrimmed, hsome]
    rw [hgoes, ← ih]
    rfl

/-- A cell is empty or begins with the character that it is read from, so
unless this is whitespace there is nothing to drop. -/
theorem dropping_readNaked {c : Scanned} (hc : ¬ whitespace.contains c.char) (cs : List Scanned) :
    (d.readNaked stop c cs).dropping whitespace = d.readNaked stop c cs := by
  rw [readNaked]
  split
  · rfl
  · split
    · exact (CellRead.dropping_keep whitespace c ⟨[], false, .inputEnd, stop, d, []⟩).trans
        (if_neg hc)
    · exact (CellRead.dropping_keep whitespace c _).trans (if_neg hc)

/-- A cell without quotes that is not trimmed. -/
theorem readCell_verbatim (htrims : d.trims = false) (hoff : d.enclosing = .off)
    (cs : List Scanned) :
    d.readCell stop whitespace cs =
      match uncons d.folds cs with
      | none => ⟨[], false, .inputEnd, stop, d, []⟩
      | some (c, cs) => d.readNaked stop c cs := by
  rw [readCell, readFirst, if_neg (by simp [htrims])]
  cases uncons d.folds cs with
  | none => rfl
  | some p => exact (by rw [readFrom, opens?_off hoff] : d.readFrom stop p.1 p.2 = _)

/-- A cell that is trimmed is what it would be, without the whitespace that it
begins with. -/
theorem readCell_untrimmed (htrims : d.trims) (hoff : d.enclosing = .off) (cs : List Scanned) :
    (d.readCell stop whitespace cs).untrimmed =
      (d.untrimmed.readCell stop whitespace cs).dropping whitespace := by
  rw [readCell_verbatim stop rfl (show d.untrimmed.enclosing = .off from hoff), folds_untrimmed,
    readCell, readFirst, if_pos htrims]
  fun_induction seek d whitespace cs with
  | case1 cs hnone =>
    rw [hnone]
    rfl
  | case2 cs c cs' hsome hc t d' ht =>
    -- The character that was detected is looked at again.
    rw [hsome]
    dsimp only
    have hoff' : d'.enclosing = .off := (LearnsTo.of_terminator ht).enclosing.off_iff.mpr hoff
    rw [readFrom, opens?_off hoff', readNaked, terminator?_again ht, readNaked,
      terminator?_untrimmed, ht]
    rfl
  | case3 cs c cs' hsome hc ht ih =>
    rw [ih, hsome]
    dsimp only
    rw [readNaked, terminator?_untrimmed, ht]
    dsimp only [Option.map_none]
    rw [folds_untrimmed]
    cases hnext : uncons d.folds cs' with
    | none =>
      have hdrop :=
        CellRead.dropping_keep whitespace c ⟨[], false, .inputEnd, stop, d.untrimmed, []⟩
      rw [if_pos hc] at hdrop
      exact hdrop.symm
    | some p => exact ((CellRead.dropping_keep whitespace c _).trans (if_pos hc)).symm
  | case4 cs c cs' hsome hc =>
    rw [hsome]
    dsimp only
    rw [readFrom, opens?_off hoff, ← readNaked_untrimmed]
    exact congrArg CellRead.untrimmed (dropping_readNaked stop hc cs').symm

end Dialect

/-! ### Cells -/

/-- The cell without the spaces and tabs that its text begins with. -/
def Cell.trimmed (c : Cell) : Cell :=
  { c with text := String.ofList (c.text.toList.dropWhile [' ', '\t'].contains) }

def Handed.trimmed (h : Handed) : Handed := { h with cell := h.cell.trimmed }

/-- A cell whose characters are kept. -/
theorem CellRead.cell_eq {k : Handing} (hk : k.strategy.keepsChars) (p : CellRead)
    (cs : List Scanned) :
    p.cell k cs =
      ⟨String.ofList (p.kept.map Scanned.char), p.enclosed, p.stop - offsetOf k.stop cs, none⟩ := by
  have htext := p.text_cell hk cs
  have hview : (p.cell k cs).view = none := by
    rw [cell, CellBuffer.appendAll_keeps hk]
    rfl
  rw [← htext, ← hview]
  rfl

/-- The same characters, in a dialect that trims and in one that does not. -/
structure Trimming (d : Dialect) (cs : List Scanned) (d' : Dialect) (cs' : List Scanned) :
    Prop where
  trims : d.trims
  enclosing : d.enclosing = .off
  dialect : d' = d.untrimmed
  chars : cs' = cs

theorem Trimming.read {d d' : Dialect} {cs cs' : List Scanned} (h : Trimming d cs d' cs')
    (k : Handing) :
    (k.read d cs).untrimmed = (k.read d' cs').dropping CellBuffer.empty.whitespace := by
  obtain ⟨htrims, hoff, rfl, rfl⟩ := h
  exact Dialect.readCell_untrimmed k.stop htrims hoff cs'

/-- The two dialects are read in step. -/
theorem keepsStep_trimming {k : Handing} (hk : k.strategy.keepsChars) :
    KeepsStep k k (fun c c' => c = c'.trimmed) Trimming where
  ended h := by rw [h.chars]
  ending h := (congrArg CellRead.ending (h.read k) :)
  cell {d d' cs cs'} h := by
    have hread := h.read k
    have hkept : (k.read d cs).kept = _ := (congrArg CellRead.kept hread :)
    have henclosed : (k.read d cs).enclosed = (k.read d' cs').enclosed :=
      (congrArg CellRead.enclosed hread :)
    have hstop : (k.read d cs).stop = (k.read d' cs').stop := (congrArg CellRead.stop hread :)
    rw [CellRead.cell_eq hk, CellRead.cell_eq hk, Cell.trimmed, hkept, henclosed, hstop, h.chars,
      String.toList_ofList, List.dropWhile_map]
    rfl
  rest {d d' cs cs'} h := by
    have hread := h.read k
    have hlearns : d.LearnsTo (k.read d cs).dialect := Dialect.learnsTo_readCell ..
    exact ⟨hlearns.trims ▸ h.trims, hlearns.enclosing.off_iff.mpr h.enclosing,
      (congrArg CellRead.dialect hread).symm, (congrArg CellRead.rest hread).symm⟩

/-! ### Texts in memory -/

/-- Reading a text in memory character by character comes to characters that do
not depend on the format, but for its encoding. -/
theorem Reader.exists_between_ofBytes {bytes : List UInt8} {o : ReadOptions} (e : Encoding)
    {start : Nat} (hle : start ≤ bytes.length) (hk : (o.strategy.getD .decode).keepsChars) :
    ∃ cs, ∀ f : Format, f.encoding.resolve (bytes.take 4) = (e, start) →
      ∃ r, ofBytes bytes f o = .ok r ∧ r.phase.isFinal = false ∧ r.handed = [] ∧
        r.Between f.toDialect ⟨o.strategy.getD .decode, e, bytes, bytes.length⟩ cs := by
  have hview : o.strategy.getD .decode ≠ .view := by
    intro hview
    rw [hview] at hk
    exact absurd hk Bool.false_ne_true
  have hruns : (Units.ofSource ((Source.ofBytes bytes).advance start (bytes.drop start)) e).Runs
      bytes.length := by
    refine ⟨⟨_, _, Source.yields_advance bytes start, ?_⟩, by simp [Units.ofSource]⟩
    rw [List.length_drop, Nat.add_sub_cancel' hle]
  obtain ⟨cs, hgives⟩ := hruns.exists_gives (o.strategy.getD .decode)
  refine ⟨cs, fun f hr => ⟨_, (ofBytes_eq o hr).trans (congrArg (Except.map _) (if_pos hview)), rfl,
    rfl, ⟨⟨Chars.gives_ofUnits hgives, rfl⟩, rfl, rfl, rfl, rfl, .inl hview⟩⟩⟩

/-- Whether whitespace at the start of a cell is dropped makes no difference but
to the texts, which are without it then.  There are the same cells of the same
bytes, whatever separates them and wherever it is detected, and the same is
said of the text. -/
theorem readBytes_trims {o : ReadOptions} (bytes : List UInt8) {f : Format}
    (hoff : f.enclosing = .off)
    (hs : o.strategy.getD .decode = .decode ∨ o.strategy.getD .decode = .raw) :
    let read (trims : Bool) :=
      readBytes bytes { f with trims } { o with characterwise := true } .always
    ∃ s, (read true).result = .ok s ∧ (read false).result = .ok s ∧
      (read true).handed = (read false).handed.map Handed.trimmed := by
  intro read
  have hkeeps : (o.strategy.getD .decode).keepsChars := by
    rcases hs with h | h <;> rw [h] <;> rfl
  obtain ⟨e, start, hr⟩ : ∃ e start, f.encoding.resolve (bytes.take 4) = (e, start) := ⟨_, _, rfl⟩
  obtain ⟨cs, hcs⟩ := Reader.exists_between_ofBytes e (Encoding.start_le_of_resolve hr) hkeeps
  obtain ⟨r, hof, hphase, hhanded, hbetween⟩ := hcs { f with trims := true } hr
  obtain ⟨r', hof', hphase', hhanded', hbetween'⟩ := hcs { f with trims := false } hr
  have hagree : Trimming { f.toDialect with trims := true } cs { f.toDialect with trims := false }
      cs := ⟨rfl, hoff, rfl, rfl⟩
  obtain ⟨rows, t, t', hread, hread', hmatches, hdialect⟩ := Reader.read_parallel
    (keepsStep_trimming hkeeps) hagree hbetween hbetween' hphase hphase' hhanded hhanded'
  have hofReader : ∀ trims,
      read trims = .ofReader .always (Reader.ofBytes bytes { f with trims } o) := fun _ => rfl
  have htrimmed : read true = r.outcome .always := by rw [hofReader, hof]; rfl
  have hverbatim : read false = r'.outcome .always := by rw [hofReader, hof']; rfl
  rw [htrimmed, hverbatim, Reader.outcome, Reader.outcome, hread, hread']
  refine ⟨_, rfl, ?_, ?_⟩
  · rw [hdialect.dialect]
    rfl
  · rw [← List.forall₂_eq_eq_eq, List.forall₂_map_right_iff]
    exact hmatches.imp fun h h' hmatch => by
      rw [Handed.trimmed, ← hmatch.row, ← hmatch.column, ← hmatch.cell]

/-- The first tab is found to separate cells while whitespace is passed over,
and the text ends in whitespace. -/
theorem readBytes_trims_tabs :
    let bytes : List UInt8 := [0x20, 0x09, 0x20, 0x61, 0x20, 0x0D, 0x0A, 0x20, 0x20]
    let f : Format := { Format.bare with separator := .auto, lineEnd := .auto }
    let read (trims : Bool) := readBytes bytes { f with trims } { characterwise := true } .always
    f.enclosing = .off ∧
      ∃ s, (read true).result = .ok s ∧ (read false).result = .ok s ∧ s.rows = 2 ∧
        s.separator = .char '\t' ∧
        (read true).handed = (read false).handed.map Handed.trimmed ∧
        (read false).handed.map Handed.told =
          [(0, 0, " ", false), (0, 1, " a ", false), (1, 0, "  ", false)] := by
  intro bytes f read
  obtain ⟨s, hs, hs', hhanded⟩ := readBytes_trims (o := {}) (f := f) bytes rfl (.inl rfl)
  have htold : (read false).handed.map Handed.told =
      [(0, 0, " ", false), (0, 1, " a ", false), (1, 0, "  ", false)] := by decide +kernel
  have hsummary : (read false).result.toOption.map (fun s => (s.rows, s.separator)) =
      some (2, .char '\t') := by decide +kernel
  rw [show (read false).result = .ok s from hs'] at hsummary
  obtain ⟨hrows, hseparator⟩ : s.rows = 2 ∧ s.separator = .char '\t' := by
    simpa [Except.toOption] using hsummary
  exact ⟨rfl, s, hs, hs', hrows, hseparator, hhanded, htold⟩

end Tabular
