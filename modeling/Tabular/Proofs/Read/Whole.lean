/-
The two ways of reading a text in memory agree.

* `readBytes_eq_split` — the outcome of splitting bytes;
* `readBytes_alike` — what reading characters comes to on the same text;
* `readBytes_agree` — cell by cell, and where this fails.
-/
import Tabular.Proofs.Read.Bytewise
import Tabular.Proofs.Read.Grammar

namespace Tabular

/-- Two cells handed over at the same place, of the same number of bytes. -/
structure Handed.SameOutline (h g : Handed) : Prop where
  row : h.row = g.row
  column : h.column = g.column
  rawBytes : h.cell.rawBytes = g.cell.rawBytes
  enclosed : h.cell.enclosed = g.cell.enclosed

theorem ReadOptions.strategy_of_allowBytewise {o : ReadOptions} (ho : o.allowBytewise) :
    o.strategy.getD .decode = .decode ∨ o.strategy.getD .decode = .view := by
  simp only [allowBytewise, Bool.and_eq_true, Bool.or_eq_true, beq_iff_eq] at ho
  rcases ho.2 with h | h <;> simp [h]

/-- A format that can be split as bytes can be served by views as well. -/
theorem Format.check_of_splitsBytes {f : Format} {e : Encoding} (hs : f.splitsBytes e)
    (s : Strategy) : s.check f e true = .ok () := by
  obtain ⟨d, -, hserves, he⟩ := Format.exists_serves hs
  have henclosing : f.enclosing = .off := hserves.enclosing
  simp [Strategy.check, henclosing, he]

variable {bytes : List UInt8} {f : Format} {o : ReadOptions} {e : Encoding} {start : Nat}

/-- Where bytes may be split, and the format lets them be, they are. -/
theorem readBytes_eq_split (hr : f.encoding.resolve (bytes.take 4) = (e, start))
    (ho : o.allowBytewise) (hs : f.splitsBytes e) (judge : Judge) :
    readBytes bytes f o judge = f.splitBytes e judge start bytes := by
  rw [readBytes, hr]
  simp [ho, hs]

theorem readBytes_characterwise (judge : Judge) :
    readBytes bytes f { o with characterwise := true } judge =
      .ofReader judge (Reader.ofBytes bytes f { o with characterwise := true }) := by
  rw [readBytes]
  rfl

/-- Reading characters hands over cells on the bytes that splitting finds, and
comes to the same end. -/
theorem readBytes_alike (hr : f.encoding.resolve (bytes.take 4) = (e, start))
    (ho : o.allowBytewise) (hs : f.splitsBytes e) (hf : ¬ f.foldsSeparator)
    (verdict : Nat → Nat → Verdict) :
    let split := readBytes bytes f o (.ofPlace verdict)
    let read := readBytes bytes f { o with characterwise := true } (.ofPlace verdict)
    (∃ summary, read.result = .ok summary ∧ summary.bytewise = false ∧
        split.result = .ok { summary with bytewise := true }) ∧
      split.progress = read.progress ∧
      List.Forall₂ (Bytewise.Alike (o.strategy.getD .decode) e bytes) split.handed read.handed := by
  intro split read
  obtain ⟨d, hd, hserves, he⟩ := Format.exists_serves hs
  have hstart := Encoding.start_le_of_resolve hr
  have hstrategy := ReadOptions.strategy_of_allowBytewise ho
  have hraw : o.strategy.getD .decode ≠ .raw := by
    rcases hstrategy with h | h <;> simp [h]
  have hcheck := Format.check_of_splitsBytes hs (o.strategy.getD .decode)
  obtain ⟨chars, hof, hreads⟩ := Reader.ofBytes_eq_ok (o := { o with characterwise := true }) hr
    hcheck hserves.settled (Encoding.groups_singleByte he (bytes.drop start))
  -- Both begin after the mark, with nothing handed over.
  have hat : Bytewise.At f.toDialect e (o.strategy.getD .decode) bytes .handing []
      (Reader.fresh chars f { o with characterwise := true } bytes) start (bytes.drop start) := by
    refine ⟨rfl, rfl, rfl, ?_, rfl, hstart, rfl, Nat.zero_le _, .nil⟩
    rw [Dialect.charsOf, ← Strategy.scanned_eq_decode hraw]
    exact hreads
  obtain ⟨r', mode, rest, hrows, hr', hstopped, hprogress⟩ :=
    hat.readRows hserves he hstrategy hf rfl verdict 0 .zero
  have hsplit : split = f.splitBytes e (.ofPlace verdict) start bytes :=
    readBytes_eq_split hr ho hs _
  rw [Format.splitBytes, hd] at hsplit
  simp only [Bytewise.run, Nat.min_eq_left hstart] at hsplit
  have hcounted := @Bytewise.split_progress d e (.ofPlace verdict) ⟨0, 0, start⟩ .handing [] .zero
    (bytes.drop start) Bytewise.Tally.covers_zero
  generalize Bytewise.split d e (.ofPlace verdict) ⟨0, 0, start⟩ .handing [] .zero
    (bytes.drop start) = out at *
  have hread : read = ⟨r'.handed.reverse, .ok (r'.summary out.rows), r'.progress⟩ := by
    show readBytes _ _ _ _ = _
    rw [readBytes_characterwise, hof, Outcome.ofReader, Reader.outcome, Reader.read, hrows]
  have hsummary : f.splitSummary e out.rows out.bytesRead out.stopped =
      { r'.summary out.rows with bytewise := true } := by
    rw [Format.splitSummary, Reader.summary, hr'.position_eq he, hr'.dialect, hr'.reads.encoding,
      hstopped]
  rw [hsplit, hread]
  refine ⟨⟨_, rfl, rfl, congrArg Except.ok hsummary⟩, hcounted.trans hprogress.symm, ?_⟩
  exact List.forall₂_reverse_iff.mpr hr'.handed

/-! ### Where they differ -/

theorem resolve_crlf {f : Format} (he : f.encoding.isSingleByte) :
    ∃ e, f.encoding.resolve (([13, 10] : List UInt8).take 4) = (e, 0) ∧ e.isSingleByte := by
  have hascii : ∀ b ∈ ([13, 10] : List UInt8).take 4, b.toNat < 0x80 := by simp
  refine ⟨_, Encoding.resolve_ascii _ hascii, ?_⟩
  split
  · rfl
  · exact he

/-- Where CR LF is folded it is read as one character. -/
theorem logical_crlf_scanned {e : Encoding} (he : e.isSingleByte) {s : Strategy} (hs : s ≠ .raw) :
    logical true (s.scanned e 2 [13, 10]) = [⟨'\n', 0, 2⟩] := by
  have hcr : s.first e [13, 10] = some ('\r', [10]) := by
    rw [Strategy.first_eq_decode hs]
    exact Decode.first_ascii he (by decide) _
  have hlf : s.first e [10] = some ('\n', []) := by
    rw [Strategy.first_eq_decode hs]
    exact Decode.first_ascii he (by decide) _
  rw [Strategy.scanned_of_first hcr, Strategy.scanned_of_first hlf, Strategy.scanned_nil,
    Encoding.unitWidth_eq_one he]
  rfl

/-- What splitting CR LF hands over, if a line feed ends lines. -/
theorem splitBytes_crlf {d : Bytewise.Ends} (hd : f.byteEnds? = some d) (hl : d.lineEnd = 10) :
    (d.separator = 10 →
      (f.splitBytes e .always 0 [13, 10]).handed =
        [⟨0, 0, Bytewise.cellAt e 0 [13]⟩, ⟨0, 1, Bytewise.cellAt e 2 []⟩]) ∧
    (d.separator = 13 →
      (f.splitBytes e .always 0 [13, 10]).handed =
        [⟨0, 0, Bytewise.cellAt e 0 []⟩, ⟨0, 1, Bytewise.cellAt e 1 []⟩]) := by
  obtain ⟨separator, lineEnd, folds⟩ := d
  obtain rfl : lineEnd = 10 := hl
  have hempty : ∀ (d : Bytewise.Ends) (b : UInt8), d.cellBytes [] b = [] := by
    simp [Bytewise.Ends.cellBytes]
  rw [Format.splitBytes, hd]
  constructor
  · rintro (rfl : separator = 10)
    have hrun : ∀ x ∈ ([13] : List UInt8), Bytewise.Ends.isContent ⟨10, 10, folds⟩ x := by
      simp [Bytewise.Ends.isContent]
    have hcell : Bytewise.Ends.cellBytes ⟨10, 10, folds⟩ [13] 10 = [13] := by
      simp [Bytewise.Ends.cellBytes]
    show (Bytewise.split _ e .always ⟨0, 0, 0⟩ .handing [] .zero ([13] ++ [10])).handed.reverse = _
    rw [Bytewise.split_byte hrun rfl, hcell]
    show (Bytewise.split _ e .always ⟨0, 1, 2⟩ .handing _ _ []).handed.reverse = _
    rw [Bytewise.split_end (by simp) (by simp)]
    rfl
  · rintro (rfl : separator = 13)
    show (Bytewise.split _ e .always ⟨0, 0, 0⟩ .handing [] .zero
      ([] ++ [13, 10])).handed.reverse = _
    rw [Bytewise.split_byte (by simp) rfl, hempty]
    show (Bytewise.split _ e .always ⟨0, 1, 1⟩ .handing _ _ ([] ++ [10])).handed.reverse = _
    rw [Bytewise.split_byte (by simp) rfl, hempty]
    show (Bytewise.split _ e .always ⟨1, 0, 2⟩ .handing _ _ []).handed.reverse = _
    rw [Bytewise.split_nil]
    rfl

namespace Bytewise.Ends.Serves

variable {d : Ends} {f : Dialect}

theorem separator_eq (h : d.Serves f) {b : UInt8} (hb : b.toNat < 0x80)
    (hsep : f.separator = .char (Char.ofNat b.toNat)) : d.separator = b := by
  rw [h.separator] at hsep
  exact (ofNat_inj_ascii h.separator_lt hb).mp (Delimiter.char.inj hsep)

/-- What reading a single line feed hands over, if a line feed ends lines. -/
theorem handedFrom_lineFeed (h : d.Serves f) (hl : d.lineEnd = 10) (k : Handing) (span : Span) :
    f.handedFrom k 0 0 [⟨'\n', span⟩] =
      ⟨0, 0, k.cell [⟨'\n', span⟩] ⟨[], false, [⟨'\n', span⟩]⟩⟩ ::
        if d.separator = 10 then f.handedFrom k 0 1 [] else [] := by
  have hends : f.ends? '\n' = if d.separator = 10 then some .separator else some .lineEnd := by
    have := h.ends?_byte (show (10 : UInt8).toNat < 0x80 by decide)
    rw [hl, if_pos rfl] at this
    simp only [@eq_comm _ d.separator]
    exact this
  have hcell : f.cellOf CellBuffer.empty.whitespace [⟨'\n', span⟩] =
      ⟨[], false, [⟨'\n', span⟩]⟩ := by
    refine h.cellOf_append (List.forall_mem_nil _) ?_ _
    rintro c hc
    obtain rfl : _ = c := by simpa using hc
    rw [Dialect.isContent, hends]
    split <;> rfl
  by_cases hsep : d.separator = 10
  · have hend : f.endOf (f.cellOf CellBuffer.empty.whitespace [⟨'\n', span⟩]).after =
        .terminator .separator := by
      rw [hcell, Dialect.endOf, hends, if_pos hsep]
      rfl
    rw [Dialect.handedFrom_separator hend, hcell, if_pos hsep]
    rfl
  · have hend : f.endOf (f.cellOf CellBuffer.empty.whitespace [⟨'\n', span⟩]).after =
        .terminator .lineEnd := by
      rw [hcell, Dialect.endOf, hends, if_neg hsep]
      rfl
    rw [Dialect.handedFrom_lineEnd hend, hcell, if_neg hsep]
    exact congrArg _ (Dialect.handedFrom_nil 1)

end Bytewise.Ends.Serves

/-- If the separator is a part of CR LF, the two ways differ on CR LF. -/
theorem readBytes_crlf_differ (ho : o.allowBytewise) (hs : f.splitsBytes f.encoding)
    (hf : f.foldsSeparator) :
    ¬ List.Forall₂ Handed.SameOutline (readBytes [13, 10] f o .always).handed
        (readBytes [13, 10] f { o with characterwise := true } .always).handed := by
  obtain ⟨d, hd, hserves, he⟩ := Format.exists_serves hs
  obtain ⟨e, hr, he⟩ := resolve_crlf he
  have hraw : o.strategy.getD .decode ≠ .raw := by
    rcases ReadOptions.strategy_of_allowBytewise ho with h | h <;> simp [h]
  have hl := hserves.lineEnd_eq hf.1
  have hs : f.splitsBytes e := by
    simp only [Format.splitsBytes, Bool.and_eq_true] at hs ⊢
    exact ⟨hs.1, he⟩
  obtain ⟨hlf, hcr⟩ := splitBytes_crlf (e := e) hd hl
  obtain ⟨summary, progress, hread⟩ := readBytes_always (o := { o with characterwise := true }) hr
    rfl (Format.check_of_splitsBytes hs _) (.inr hserves.enclosing) hserves.settled
    (Encoding.groups_singleByte he _)
  have hchars : logical f.folds ((o.strategy.getD .decode).scanned e 2 [13, 10]) =
      [⟨'\n', 0, 2⟩] := hf.1 ▸ logical_crlf_scanned he hraw
  rw [readBytes_eq_split hr ho hs, hread]
  dsimp only
  rintro hsame
  change List.Forall₂ _ _ (f.handedFrom _ 0 0 (logical f.folds
    ((o.strategy.getD .decode).scanned e 2 [13, 10]))) at hsame
  rw [hchars, hserves.handedFrom_lineFeed hl] at hsame
  rcases hf.2 with hsep | hsep
  · -- The split finds an empty cell before the carriage return, and one after it.
    have hsep := hserves.separator_eq (b := 13) (by decide) hsep
    rw [hcr hsep, hsep, if_neg (by decide)] at hsame
    exact absurd hsame.length_eq (show 2 ≠ 1 by decide)
  · -- To the split the carriage return is a part of the first cell.
    have hsep := hserves.separator_eq (b := 10) (by decide) hsep
    rw [hlf hsep] at hsame
    cases hsame with
    | cons hfirst _ => exact absurd hfirst.rawBytes (show 1 ≠ 0 by decide)

/-! ### The two ways compared -/

namespace Bytewise.Alike

variable {s : Strategy} {h g : Handed}

theorem sameOutline (ha : Alike s e bytes h g) : h.SameOutline g := by
  obtain ⟨position, part, -, hh, hg⟩ := ha.cell
  exact ⟨ha.row, ha.column, by rw [hh, hg]; rfl, by rw [hh, hg]; rfl⟩

/-- Views are on the same bytes, and their texts are those of the bytes. -/
theorem of_view (ha : Alike .view e bytes h g) :
    h.cell.text = g.cell.text ∧ (h.cell.rawBytes ≠ 0 → h.cell.view = g.cell.view) := by
  obtain ⟨position, part, -, hh, hg⟩ := ha.cell
  rw [hh, hg]
  refine ⟨rfl, fun hne => ?_⟩
  have hpart : part ≠ [] := fun hnil => hne (by rw [hnil]; rfl)
  exact (if_pos ⟨rfl, hpart⟩).symm

/-- Texts agree where a run of bytes reads as its characters do. -/
theorem text_eq (he : e.isSingleByte) (ha : Alike s e bytes h g)
    (hb : e = .latin1 ∨ e = .windows1252 ∨ Lossy.NoBrokenLead bytes) :
    h.cell.text = g.cell.text := by
  obtain ⟨position, part, hpart, hh, hg⟩ := ha.cell
  rw [hh, hg]
  show String.ofList (e.decodeBytes part) = String.ofList (if _ then _ else _)
  split
  · rfl
  · rw [Encoding.decodeBytes_eq_decode he (hb.imp_right (Or.imp_right (·.of_part hpart)))]

end Bytewise.Alike

/-- Where cells may be split off as bytes, reading characters comes to the same
cells in the same places, on the same bytes, with the same to say about it,
whatever the bytes and the verdicts are: unless the separator is a part of
CR LF where that is folded, when CR LF itself is read differently.  The texts
are the same where both keep views, and where each byte is a character or no
lead byte of UTF-8 is broken. -/
theorem readBytes_agree (f : Format) (o : ReadOptions) (ho : o.allowBytewise) :
    (∀ (bytes : List UInt8) (verdict : Nat → Nat → Verdict),
      let e := (f.encoding.resolve (bytes.take 4)).1
      let split := readBytes bytes f o (.ofPlace verdict)
      let read := readBytes bytes f { o with characterwise := true } (.ofPlace verdict)
      f.splitsBytes e → ¬ f.foldsSeparator →
        (∃ summary, read.result = .ok summary ∧ summary.bytewise = false ∧
          split.result = .ok { summary with bytewise := true }) ∧
        split.progress = read.progress ∧
        List.Forall₂ Handed.SameOutline split.handed read.handed ∧
        (o.strategy = some .view → List.Forall₂ (fun h g => h.cell.text = g.cell.text ∧
          (h.cell.rawBytes ≠ 0 → h.cell.view = g.cell.view)) split.handed read.handed) ∧
        (e = .latin1 ∨ e = .windows1252 ∨ Lossy.NoBrokenLead bytes →
          List.Forall₂ (fun h g => h.cell.text = g.cell.text) split.handed read.handed)) ∧
    (f.splitsBytes f.encoding → f.foldsSeparator →
      ¬ List.Forall₂ Handed.SameOutline (readBytes [13, 10] f o .always).handed
        (readBytes [13, 10] f { o with characterwise := true } .always).handed) := by
  refine ⟨?_, readBytes_crlf_differ ho⟩
  intro bytes verdict e split read hs hf
  -- All of it is read off the cells, which are on the same bytes.
  have hr : f.encoding.resolve (bytes.take 4) = (e, _) := rfl
  obtain ⟨hresult, hprogress, halike⟩ := readBytes_alike hr ho hs hf verdict
  obtain ⟨-, -, -, he⟩ := Format.exists_serves hs
  refine ⟨hresult, hprogress, ?_, ?_, ?_⟩
  · exact halike.imp fun _ _ h => h.sameOutline
  · intro hview
    have hstrategy : o.strategy.getD .decode = .view := by rw [hview]; rfl
    exact halike.imp fun _ _ h => Bytewise.Alike.of_view (hstrategy ▸ h)
  · intro hb
    exact halike.imp fun _ _ h => h.text_eq he hb

/-- The two ways on a line that ends with CR LF, and on CR LF itself where a
carriage return separates cells. -/
theorem readBytes_agree_crlf :
    List.Forall₂ (fun h g => h.cell.text = g.cell.text)
        (readBytes [0xC3, 0xA4, 44, 13, 10] .bare {} .always).handed
        (readBytes [0xC3, 0xA4, 44, 13, 10] .bare { characterwise := true } .always).handed ∧
      ¬ List.Forall₂ Handed.SameOutline
        (readBytes [13, 10] (.fixed '\r' none '\n') {} .always).handed
        (readBytes [13, 10] (.fixed '\r' none '\n') { characterwise := true } .always).handed := by
  constructor
  · have hagree := (readBytes_agree .bare {} rfl).1 [0xC3, 0xA4, 44, 13, 10] (fun _ _ => .proceed)
      rfl (by decide)
    exact hagree.2.2.2.2 (.inr (.inr (by decide)))
  · exact (readBytes_agree (.fixed '\r' none '\n') {} rfl).2 rfl (by decide)

end Tabular
