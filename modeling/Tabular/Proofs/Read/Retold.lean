/-
Reading goes by the characters of a text, not by its bytes.

* `Scanned.bare`, `CellRead.bare` — characters and a cell without the bytes
  that they lie on;
* `Dialect.bare_readCell` — the cell that characters begin with is the same
  wherever they lie;
* `Reader.Retold` — two readers that have the same characters before them and
  have told the same;
* `Reader.Retold.readRows` — they go on to tell the same;
* `readBytes_carries` — so it does not matter in which bytes a text comes;
* `readBytes_encode` — it is read alike in every encoding.

Design notes: offsets decide one thing only, whether there was anything of a
row, and for that it matters only that every character takes some bytes.
-/
import Tabular.Proofs.Read.Failure
import Tabular.Proofs.Write.Mark

namespace Tabular

/-! ### Without the bytes -/

/-- The character alone. -/
def Scanned.bare (c : Scanned) : Scanned := ⟨c.char, ⟨0, 0⟩⟩

theorem map_bare_eq {cs cs' : List Scanned} (h : cs.map Scanned.char = cs'.map Scanned.char) :
    cs.map Scanned.bare = cs'.map Scanned.bare := by
  have hbare : Scanned.bare = (fun c => (⟨c, ⟨0, 0⟩⟩ : Scanned)) ∘ Scanned.char := rfl
  rw [hbare, ← List.map_map, h, List.map_map]

theorem map_char_eq {cs cs' : List Scanned} (h : cs.map Scanned.bare = cs'.map Scanned.bare) :
    cs.map Scanned.char = cs'.map Scanned.char := by
  have hchar : Scanned.char = Scanned.char ∘ Scanned.bare := rfl
  rw [hchar, ← List.map_map, h, List.map_map]

/-- A cell at the head of characters of which only the characters count. -/
def CellRead.bare (p : CellRead) : CellRead :=
  { p with kept := p.kept.map Scanned.bare, stop := 0, rest := p.rest.map Scanned.bare }

theorem uncons_bare (folds : Bool) (cs : List Scanned) :
    uncons folds (cs.map Scanned.bare) =
      (uncons folds cs).map fun (c, cs) => (c.bare, cs.map Scanned.bare) := by
  fun_cases uncons folds cs with
  | case1 => rfl
  | case2 c => rfl
  | case3 c d cs hfold =>
    rw [List.map_cons, List.map_cons, uncons]
    exact if_pos hfold
  | case4 c d cs hfold =>
    rw [List.map_cons, List.map_cons, uncons]
    exact if_neg hfold

theorem uncons_bare_none {folds : Bool} {cs : List Scanned} (h : uncons folds cs = none) :
    uncons folds (cs.map Scanned.bare) = none := by
  rw [uncons_bare, h]
  rfl

theorem uncons_bare_some {folds : Bool} {c : Scanned} {cs rest : List Scanned}
    (h : uncons folds cs = some (c, rest)) :
    uncons folds (cs.map Scanned.bare) = some (c.bare, rest.map Scanned.bare) := by
  rw [uncons_bare, h]
  rfl

namespace Dialect

variable (d : Dialect) (stop : Nat)

theorem bare_readNaked (c : Scanned) (cs : List Scanned) :
    (d.readNaked stop c cs).bare = d.readNaked 0 c.bare (cs.map Scanned.bare) := by
  fun_induction readNaked d stop c cs with
  | case1 c cs t d' ht =>
    rw [readNaked, show d.terminator? c.bare.char = _ from ht]
    rfl
  | case2 c cs ht hnone =>
    rw [readNaked, show d.terminator? c.bare.char = _ from ht]
    dsimp only
    rw [uncons_bare_none hnone]
    rfl
  | case3 c cs ht c' cs' hsome ih =>
    have hgoes : d.readNaked 0 c.bare (cs.map Scanned.bare) =
        (d.readNaked 0 c'.bare (cs'.map Scanned.bare)).keep c.bare := by
      rw [readNaked, show d.terminator? c.bare.char = _ from ht]
      dsimp only
      rw [uncons_bare_some hsome]
    rw [hgoes, ← ih]
    rfl

theorem bare_readEnclosed (q : Char) (cs : List Scanned) :
    (d.readEnclosed stop q cs).bare = d.readEnclosed 0 q (cs.map Scanned.bare) := by
  fun_induction readEnclosed d stop q cs with
  | case1 cs hnone =>
    rw [readEnclosed, uncons_bare_none hnone]
    rfl
  | case2 cs c cs' hsome hc ih =>
    have hgoes : d.readEnclosed 0 q (cs.map Scanned.bare) =
        (d.readEnclosed 0 q (cs'.map Scanned.bare)).keep c.bare := by
      rw [readEnclosed, uncons_bare_some hsome]
      exact if_pos hc
    rw [hgoes, ← ih]
    rfl
  | case3 cs c cs' hsome hc hnone =>
    rw [readEnclosed, uncons_bare_some hsome]
    dsimp only
    rw [if_neg (show ¬ c.bare.char ≠ q from hc), uncons_bare_none hnone]
    rfl
  | case4 cs c cs' hsome hc c' cs'' hsome' hc' ih =>
    have hgoes : d.readEnclosed 0 q (cs.map Scanned.bare) =
        (d.readEnclosed 0 q (cs''.map Scanned.bare)).keep c.bare := by
      rw [readEnclosed, uncons_bare_some hsome]
      dsimp only
      rw [if_neg (show ¬ c.bare.char ≠ q from hc), uncons_bare_some hsome']
      exact if_pos hc'
    rw [hgoes, ← ih]
    rfl
  | case5 cs c cs' hsome hc c' cs'' hsome' hc' =>
    have hgoes : d.readEnclosed 0 q (cs.map Scanned.bare) =
        d.readNaked 0 c'.bare (cs''.map Scanned.bare) := by
      rw [readEnclosed, uncons_bare_some hsome]
      dsimp only
      rw [if_neg (show ¬ c.bare.char ≠ q from hc), uncons_bare_some hsome']
      exact if_neg hc'
    rw [hgoes, bare_readNaked]

theorem bare_seek (whitespace : List Char) (cs : List Scanned) :
    d.seek whitespace (cs.map Scanned.bare) =
      (d.seek whitespace cs).map fun (c, cs, d) => (c.bare, cs.map Scanned.bare, d) := by
  fun_induction seek d whitespace cs with
  | case1 cs hnone =>
    rw [seek, uncons_bare_none hnone]
    rfl
  | case2 cs c cs' hsome hc t d' ht =>
    rw [seek, uncons_bare_some hsome]
    dsimp only
    rw [if_pos (show whitespace.contains c.bare.char from hc),
      show d.terminator? c.bare.char = _ from ht]
    rfl
  | case3 cs c cs' hsome hc ht ih =>
    rw [seek, uncons_bare_some hsome]
    dsimp only
    rw [if_pos (show whitespace.contains c.bare.char from hc),
      show d.terminator? c.bare.char = _ from ht]
    exact ih
  | case4 cs c cs' hsome hc =>
    rw [seek, uncons_bare_some hsome]
    dsimp only
    rw [if_neg (show ¬ whitespace.contains c.bare.char from hc)]
    rfl

theorem bare_readFirst (whitespace : List Char) (cs : List Scanned) :
    d.readFirst whitespace (cs.map Scanned.bare) =
      (d.readFirst whitespace cs).map fun (c, cs, d) => (c.bare, cs.map Scanned.bare, d) := by
  rw [readFirst, readFirst]
  split
  · exact d.bare_seek whitespace cs
  · rw [uncons_bare, Option.map_map, Option.map_map]
    rfl

theorem bare_readFrom (c : Scanned) (cs : List Scanned) :
    (d.readFrom stop c cs).bare = d.readFrom 0 c.bare (cs.map Scanned.bare) := by
  rw [readFrom, readFrom, show d.opens? c.bare.char = d.opens? c.char from rfl]
  cases d.opens? c.char with
  | none => exact d.bare_readNaked stop c cs
  | some d' =>
    dsimp only
    rw [show c.bare.char = c.char from rfl, ← d'.bare_readEnclosed stop]
    rfl

/-- The cell that characters begin with, wherever they lie. -/
theorem bare_readCell (whitespace : List Char) (cs : List Scanned) :
    (d.readCell stop whitespace cs).bare = d.readCell 0 whitespace (cs.map Scanned.bare) := by
  rw [readCell, readCell, bare_readFirst]
  cases d.readFirst whitespace cs with
  | none => rfl
  | some p => exact bare_readFrom ..

end Dialect

/-! ### The reader -/

/-- What is told of a cell apart from the bytes that it lies on. -/
def Handed.told (h : Handed) : Nat × Nat × String × Bool :=
  (h.row, h.column, h.cell.text, h.cell.enclosed)

theorem CellRead.text_cell {k : Handing} (hk : k.strategy.keepsChars) (p : CellRead)
    (cs : List Scanned) : (p.cell k cs).text = String.ofList (p.kept.map Scanned.char) :=
  CellBuffer.text_toCell hk rfl rfl ..

namespace Reader

variable {r r' s s' : Reader} {judge : Judge} {row column : Nat} {mode : LineMode}

/-- Where two readers end a text, they are at the end of their row or have read
nothing of it alike. -/
theorem Poised.position_eq_iff {d d' : Dialect} {k : Handing} {cs : List Scanned}
    (h : r.Poised d k cs) (hs : s.Poised d' k []) : s.position = r.position ↔ cs = [] := by
  constructor
  · intro heq
    by_contra hne
    have hrow : ¬ (cs = [] ∧ 0 = 0) := fun hcond => hne hcond.1
    exact h.position_ne hrow hs rfl heq
  · rintro rfl
    exact hs.position.trans h.position.symm

/-- Two readers have the same characters before them, are as far, and have told
the same. -/
structure Retold (r r' : Reader) : Prop where
  poised : ∃ d k k' cs cs', r.Poised d k cs ∧ r'.Poised d k' cs' ∧ k.strategy = .decode ∧
    k'.strategy = .decode ∧ cs.map Scanned.bare = cs'.map Scanned.bare
  strategy : r.strategy = r'.strategy
  phase : r.phase = r'.phase
  handed : r.handed.map Handed.told = r'.handed.map Handed.told

namespace Retold

theorem dialect (h : r.Retold r') : r.dialect = r'.dialect := by
  obtain ⟨d, k, k', cs, cs', hp, hp', -⟩ := h.poised
  rw [hp.dialect, hp'.dialect]

/-- Strategies that decode can take turns, and the other fields do not matter. -/
theorem update (h : r.Retold r') {strategy : Strategy} (hs : strategy = .decode ∨ strategy = .discard)
    (phase : Phase) (progress progress' accounted accounted' : Nat) {handed handed' : List Handed}
    (hhanded : handed.map Handed.told = handed'.map Handed.told) :
    Retold { r with strategy, phase, progress, accounted, handed }
      { r' with
        strategy
        phase
        progress := progress'
        accounted := accounted'
        handed := handed' } := by
  obtain ⟨d, k, k', cs, cs', hp, hp', hk, hk', hcs⟩ := h.poised
  exact ⟨⟨d, k, k', cs, cs', (hp.withStrategy (hk ▸ hs)).congr rfl rfl rfl rfl rfl,
    (hp'.withStrategy (hk' ▸ hs)).congr rfl rfl rfl rfl rfl, hk, hk', hcs⟩, rfl, rfl, hhanded⟩

theorem withPhase (h : r.Retold r') (phase : Phase) :
    Retold { r with phase } { r' with phase } := by
  obtain ⟨⟨d, k, k', cs, cs', hp, hp', hrest⟩, hstrategy, -, hhanded⟩ := h
  exact ⟨⟨d, k, k', cs, cs', hp.congr rfl rfl rfl rfl rfl, hp'.congr rfl rfl rfl rfl rfl, hrest⟩,
    hstrategy, rfl, hhanded⟩

/-- Both read the same cell. -/
theorem readCell (h : r.Retold r') :
    ∃ ending s s', r.readCell = .ok ending s ∧ r'.readCell = .ok ending s' ∧ s.Retold s' ∧
      s.strategy = r.strategy ∧
      (r.strategy = .decode → s.cell.text = s'.cell.text ∧ s.cell.enclosed = s'.cell.enclosed) ∧
      (ending = .inputEnd → (s.position = r.position ↔ s'.position = r'.position)) := by
  obtain ⟨⟨d, k, k', cs, cs', hp, hp', hk, hk', hcs⟩, hstrategy, -, hhanded⟩ := h
  have hbare : (k.read d cs).bare = (k'.read d cs').bare := by
    rw [Handing.read, Handing.read, Dialect.bare_readCell, Dialect.bare_readCell, hcs]
  have hending : (k.read d cs).ending = (k'.read d cs').ending :=
    (congrArg CellRead.ending hbare :)
  have hkept : (k.read d cs).kept.map Scanned.char = (k'.read d cs').kept.map Scanned.char :=
    map_char_eq (congrArg CellRead.kept hbare)
  have hdialect : (k.read d cs).dialect = (k'.read d cs').dialect :=
    (congrArg CellRead.dialect hbare :)
  obtain ⟨s, hread, hs, hss, hcell, hphase, hsh⟩ := hp.readCell
  obtain ⟨s', hread', hs', hss', hcell', hphase', hsh'⟩ := hp'.readCell
  rw [← hdialect] at hs'
  refine ⟨_, s, s', hread, hending ▸ hread', ?_, hss, fun hdecode => ?_, fun hend => ?_⟩
  · refine ⟨⟨_, k, k', _, _, hs, hs', hk, hk', congrArg CellRead.rest hbare⟩, ?_, ?_, ?_⟩
    · rw [hss, hss', hstrategy]
    · rw [hphase, hphase', hending]
    · rw [hsh, hsh', hhanded]
  · rw [hcell (hdecode.trans hk.symm), hcell' ((hstrategy ▸ hdecode).trans hk'.symm),
      CellRead.text_cell (hk ▸ rfl), CellRead.text_cell (hk' ▸ rfl), hkept]
    exact ⟨rfl, (congrArg CellRead.enclosed hbare :)⟩
  · have hrest : (k.read d cs).rest = [] := Dialect.rest_eq_nil hend
    have hrest' : (k'.read d cs').rest = [] := Dialect.rest_eq_nil (hending ▸ hend)
    rw [hrest] at hs
    rw [hrest'] at hs'
    rw [hp.position_eq_iff hs, hp'.position_eq_iff hs', ← List.map_eq_nil_iff (f := Scanned.bare),
      hcs, List.map_eq_nil_iff]

/-- A verdict on the cell in the buffer is heeded by both. -/
theorem present (h : r.Retold r') {v : Verdict} (hv : judge row column r.cell = v)
    (hv' : judge row column r'.cell = v) (hk : mode = .handing → r.strategy = .decode)
    (hcell : mode = .handing → r.cell.text = r'.cell.text ∧ r.cell.enclosed = r'.cell.enclosed) :
    let p := r.present judge row column mode
    let p' := r'.present judge row column mode
    p.1 = p'.1 ∧ p.2.Retold p'.2 ∧ (p.1 = .handing → p.2.strategy = .decode) := by
  cases mode with
  | skipping | stopped => exact ⟨rfl, h, by simp [Reader.present]⟩
  | handing =>
    obtain ⟨htext, henclosed⟩ := hcell rfl
    have hhanded : (⟨row, column, r.cell⟩ :: r.handed).map Handed.told =
        (⟨row, column, r'.cell⟩ :: r'.handed).map Handed.told := by
      rw [List.map_cons, List.map_cons, h.handed, Handed.told, htext, henclosed]
      rfl
    simp only [Reader.present, hv, hv', true_and]
    constructor
    · have hs : (if v.skips then Strategy.discard else r.strategy) = .decode ∨
          (if v.skips then Strategy.discard else r.strategy) = .discard := by
        split
        · exact .inr rfl
        · exact .inl (hk rfl)
      rw [heed_eq, heed_eq, handOver, handOver, ← h.strategy, ← h.phase]
      exact h.update hs _ _ _ _ _ hhanded
    · intro hmode
      cases v with
      | proceed => exact hk rfl
      | skipLine | stop | skipLineThenStop => simp [LineMode.ofVerdict] at hmode

/-- Two readers of which both have read a cell that there is something of go on
alike with the verdict on it. -/
theorem afterCell (hj : ∀ row column cell cell', judge row column cell = judge row column cell')
    {ending : CellEnd} (h : r.Retold r') (hread : r.readCell = .ok ending s)
    (hrow : ¬ (ending = .inputEnd ∧ column = 0 ∧ s.position = r.position))
    (hk : mode = .handing → r.strategy = .decode) :
    ∃ s', r'.readCell = .ok ending s' ∧
      ¬ (ending = .inputEnd ∧ column = 0 ∧ s'.position = r'.position) ∧
      let p := s.present judge row column mode
      let p' := s'.present judge row column mode
      p.1 = p'.1 ∧ p.2.Retold p'.2 ∧ (p.1 = .handing → p.2.strategy = .decode) := by
  obtain ⟨ending', t, s', hread'', hread', hs, hst, hcell, hposition⟩ := h.readCell
  obtain ⟨rfl, rfl⟩ := EStateM.Result.ok.inj (hread.symm.trans hread'')
  refine ⟨s', hread', fun hcond => hrow ⟨hcond.1, hcond.2.1, ?_⟩, ?_⟩
  · exact (hposition hcond.1).mpr hcond.2.2
  · exact hs.present rfl (hj ..) (fun hm => hst.trans (hk hm)) fun hm => hcell (hk hm)

/-- Both read the same cells of a line, if verdicts go by where a cell stands. -/
theorem readCells (row column : Nat)
    (hj : ∀ row column cell cell', judge row column cell = judge row column cell')
    (h : r.Retold r') (hk : mode = .handing → r.strategy = .decode) :
    ∃ found s s', r.readCells judge row column mode = .ok found s ∧
      r'.readCells judge row column mode = .ok found s' ∧ s.Retold s' := by
  revert r'
  fun_induction Reader.readCells judge row column mode r with
  | case1 column mode r e s hs =>
    intro r' h
    obtain ⟨ending, t, t', hread, -⟩ := h.readCell
    exact absurd (hs.symm.trans hread) (by simp)
  | case2 column mode r ending s hs he =>
    intro r' h
    obtain ⟨ending', t, t', hread, hread', ht, -, -, hposition⟩ := h.readCell
    obtain ⟨rfl, rfl⟩ := EStateM.Result.ok.inj (hs.symm.trans hread)
    refine ⟨false, s, t', rfl, ?_, ht⟩
    rw [Reader.readCells, hread']
    exact if_pos ⟨he.1, he.2.1, (hposition he.1).mp he.2.2⟩
  | case3 column mode r ending s hs he p hp =>
    intro r' h
    obtain ⟨s', hread', he', hmode, hretold, -⟩ := afterCell hj h hs he hk
    refine ⟨true, _, _, rfl, ?_, hretold⟩
    rw [Reader.readCells, hread']
    dsimp only
    rw [if_neg he']
    exact if_pos (hmode ▸ hp)
  | case4 column mode r s p hp hs he ih =>
    intro r' h
    obtain ⟨s', hread', he', hmode, hretold, hk'⟩ := afterCell hj h hs he hk
    have hgoes : r'.readCells judge row column mode = Reader.readCells judge row (column + 1)
        (s.present judge row column mode).1 (s'.present judge row column mode).2 := by
      rw [Reader.readCells, hread']
      dsimp only
      rw [if_neg he', ← hmode, if_neg hp]
      exact if_pos rfl
    rw [hgoes]
    exact ih hk' hretold
  | case5 column mode r ending s hs he p hp hend =>
    intro r' h
    obtain ⟨s', hread', he', hmode, hretold, -⟩ := afterCell hj h hs he hk
    have hgoes : r'.readCells judge row column mode = .ok true
        (if (s.present judge row column mode).1 = .skipping true then
          { (s'.present judge row column mode).2 with phase := .stopped }
        else (s'.present judge row column mode).2) := by
      rw [Reader.readCells, hread']
      dsimp only
      rw [if_neg he', ← hmode, if_neg hp]
      exact if_neg hend
    refine ⟨true, _, _, rfl, hgoes, ?_⟩
    split
    · exact hretold.withPhase .stopped
    · exact hretold

/-- Both read the same line. -/
theorem readRow (row : Nat)
    (hj : ∀ row column cell cell', judge row column cell = judge row column cell')
    (h : r.Retold r') (hk : r.strategy = .decode) :
    ∃ found s s', r.readRow judge row = .ok found s ∧ r'.readRow judge row = .ok found s' ∧
      s.Retold s' ∧ s.strategy = .decode := by
  obtain ⟨found, s, s', hcells, hcells', hs⟩ := h.readCells row 0 hj fun _ => hk
  rw [Reader.readRow, Reader.readRow, hcells, hcells']
  refine ⟨found, _, _, rfl, rfl, ?_, hk⟩
  rw [account, account, ← h.strategy, hs.phase]
  exact hs.update (.inl hk) s'.phase _ _ _ _ hs.handed

/-- Both read the same text. -/
theorem readRows (row : Nat)
    (hj : ∀ row column cell cell', judge row column cell = judge row column cell')
    (h : r.Retold r') (hk : r.strategy = .decode) :
    ∃ rows s s', r.readRows judge row = .ok rows s ∧ r'.readRows judge row = .ok rows s' ∧
      s.Retold s' := by
  fun_induction Reader.readRows judge row r generalizing r' with
  | case1 row r hf =>
    refine ⟨row, r, r', rfl, ?_, h⟩
    rw [Reader.readRows]
    exact if_pos (h.phase ▸ hf)
  | case2 row r hf e t ht =>
    obtain ⟨found, s, s', hrow, -⟩ := h.readRow row hj hk
    exact absurd (ht.symm.trans hrow) (by simp)
  | case3 row r hf found t ht ih =>
    obtain ⟨found', s, s', hrow, hrow', hs, hks⟩ := h.readRow row hj hk
    obtain ⟨rfl, rfl⟩ := EStateM.Result.ok.inj (ht.symm.trans hrow)
    have hgoes : r'.readRows judge row =
        s'.readRows judge (if found then row + 1 else row) := by
      rw [Reader.readRows, if_neg (h.phase ▸ hf), hrow']
    rw [hgoes]
    exact ih hs hks

/-- What comes out of both, if verdicts go by where a cell stands. -/
theorem outcome (hj : ∀ row column cell cell', judge row column cell = judge row column cell')
    (h : r.Retold r') (hk : r.strategy = .decode) :
    ∃ s s', (r.outcome judge).result = .ok s ∧ (r'.outcome judge).result = .ok s' ∧
      (r.outcome judge).handed.map Handed.told = (r'.outcome judge).handed.map Handed.told ∧
      s.rows = s'.rows ∧ s.stopped = s'.stopped ∧ s.separator = s'.separator ∧
      s.lineEnd = s'.lineEnd := by
  obtain ⟨rows, s, s', hrows, hrows', hs⟩ := h.readRows 0 hj hk
  simp only [Reader.outcome, Reader.read, hrows, hrows', List.map_reverse, hs.handed, true_and]
  refine ⟨_, _, rfl, rfl, rfl, ?_, ?_, ?_⟩
  · show (s.phase == .stopped) = (s'.phase == .stopped)
    rw [hs.phase]
  · exact congrArg Dialect.separator hs.dialect
  · exact congrArg Dialect.lineEnd hs.dialect

end Retold

end Reader

/-! ### Encodings -/

/-- The characters of an encoded text are the text. -/
theorem Encoding.map_char_layOut {e : Encoding} {text : List Char}
    (h : ∀ c ∈ text, e.represents c) (start : Nat) :
    (e.layOut start (e.encode text)).map Scanned.char = text := by
  have hclip : ∀ stop, Scanned.char ∘ Scanned.clip stop = Scanned.char := fun _ => rfl
  rw [layOut, List.map_map, hclip, Strategy.map_char_scanned (by decide),
    (groups_encode h).unitsOf_eq, decode_charUnits h]

/-- Bytes that are read in an encoding in which they are that text, after what
is passed over of them. -/
structure Encoding.Carries (e : Encoding) (bytes : List UInt8) (text : List Char) : Prop where
  represents : ∀ c ∈ text, e.represents c
  resolve : ∃ start, e.resolve (bytes.take 4) = (e, start) ∧ bytes.drop start = e.encode text

/-- A text that does not begin with U+FEFF is all there is. -/
theorem Encoding.carries_encode {e : Encoding} {text : List Char} (he : e ≠ .unknown)
    (ht : ∀ c ∈ text, e.represents c) (hmark : text.head? ≠ some '\uFEFF') :
    e.Carries (e.encode text) text :=
  ⟨ht, 0, resolve_of_ne he fun _ hown => ByteOrderMark.detect_encode hown ht hmark, rfl⟩

/-- A text is read from its first character on, in whatever encoding it is. -/
theorem Reader.exists_poised_carries {f : Format} {o : ReadOptions} {e : Encoding}
    {bytes : List UInt8} {text : List Char} (h : e.Carries bytes text)
    (ho : o.strategy.getD .decode = .decode) :
    ∃ chars cs, ofBytes bytes { f with encoding := e } o = .ok (fresh chars f o bytes) ∧
      (fresh chars f o bytes).Poised f.toDialect ⟨.decode, e, bytes, bytes.length⟩ cs ∧
      cs.map Scanned.char = text := by
  obtain ⟨ht, start, hr, hdrop⟩ := h
  have hraw : o.strategy ≠ some .raw := fun hraw => by simp [hraw] at ho
  have hcheck : (o.strategy.getD .decode).check { f with encoding := e } e true = .ok () := by
    rw [ho]
    rfl
  obtain ⟨chars, cs, hof, hpoised, hcs⟩ := exists_poised (f := { f with encoding := e }) hr hraw hcheck
  rw [ho] at hpoised
  refine ⟨chars, cs, hof, hpoised, ?_⟩
  have hwhole : ¬ Format.BreaksOff { f with encoding := e } bytes := by
    rw [Format.BreaksOff, hr]
    dsimp only
    rw [hdrop]
    exact fun hbreak => hbreak.1 ⟨_, (Encoding.groups_encode ht).length⟩
  rw [hcs.1 hwhole, hdrop]
  exact Encoding.map_char_layOut ht start

/-- Bytes that carry the same text come to the same cells, rows and
terminators. -/
theorem readBytes_carries {e e' : Encoding} {bytes bytes' : List UInt8} {text : List Char}
    {o : ReadOptions} (f : Format) (v : Nat → Nat → Verdict) (h : e.Carries bytes text)
    (h' : e'.Carries bytes' text) (ho : o.strategy.getD .decode = .decode) :
    let read (e : Encoding) (bytes : List UInt8) := readBytes bytes { f with encoding := e }
      { o with characterwise := true } fun row column _ => v row column
    ∃ s s', (read e bytes).result = .ok s ∧ (read e' bytes').result = .ok s' ∧
      (read e bytes).handed.map Handed.told = (read e' bytes').handed.map Handed.told ∧
      s.rows = s'.rows ∧ s.stopped = s'.stopped ∧ s.separator = s'.separator ∧
      s.lineEnd = s'.lineEnd := by
  intro read
  let judge : Judge := fun row column _ => v row column
  have hread : ∀ e bytes, read e bytes = .ofReader judge
      (Reader.ofBytes bytes { f with encoding := e } o) := fun _ _ => rfl
  obtain ⟨chars, cs, hof, hpoised, hcs⟩ := Reader.exists_poised_carries (f := f) h ho
  obtain ⟨chars', cs', hof', hpoised', hcs'⟩ := Reader.exists_poised_carries (f := f) h' ho
  rw [hread, hread, hof, hof']
  have hretold : Reader.Retold _ _ := ⟨⟨_, _, _, _, _, hpoised, hpoised', rfl, rfl,
    map_bare_eq (hcs.trans hcs'.symm)⟩, rfl, rfl, rfl⟩
  exact hretold.outcome (fun _ _ _ _ => rfl) ho

/-- Reading goes by the characters of a text: in every encoding that represents
them all they come to the same cells, rows and terminators as in UTF-8. -/
theorem readBytes_encode {e : Encoding} {text : List Char} {o : ReadOptions} (f : Format)
    (v : Nat → Nat → Verdict) (he : e ≠ .unknown) (ht : ∀ c ∈ text, e.represents c)
    (hmark : text.head? ≠ some '\uFEFF') (ho : o.strategy.getD .decode = .decode) :
    let read (e : Encoding) := readBytes (e.encode text) { f with encoding := e }
      { o with characterwise := true } fun row column _ => v row column
    ∃ s s', (read e).result = .ok s ∧ (read .utf8).result = .ok s' ∧
      (read e).handed.map Handed.told = (read .utf8).handed.map Handed.told ∧
      s.rows = s'.rows ∧ s.stopped = s'.stopped ∧ s.separator = s'.separator ∧
      s.lineEnd = s'.lineEnd :=
  readBytes_carries f v (Encoding.carries_encode he ht hmark)
    (Encoding.carries_encode (by decide) (fun _ _ => rfl) hmark) ho

/-- A text with a surrogate pair, of which everything is detected. -/
theorem readBytes_encode_utf16be :
    let text : List Char := ['"', 'é', ',', '"', ';', '😀', '\r', '\n', 'x']
    let f : Format := { Format.csv with separator := .auto, enclosing := .auto, lineEnd := .auto }
    let read (e : Encoding) := readBytes (e.encode text) { f with encoding := e }
      { characterwise := true } fun _ _ _ => .proceed
    (∀ c ∈ text, Encoding.utf16be.represents c) ∧ text.head? ≠ some '\uFEFF' ∧
      ∃ s, (read .utf16be).result = .ok s ∧
        (read .utf16be).handed.map Handed.told =
          [(0, 0, "é,", true), (0, 1, "😀", false), (1, 0, "x", false)] ∧
        s.rows = 2 ∧ s.separator = .char ';' ∧ s.lineEnd = .char '\n' := by
  intro text f read
  have ht : ∀ c ∈ text, Encoding.utf16be.represents c := fun _ _ => rfl
  have hmark : text.head? ≠ some '\uFEFF' := by decide
  obtain ⟨s, s', hs, hs', htold, hrows, -, hseparator, hlineEnd⟩ :=
    readBytes_encode (o := {}) f (fun _ _ => .proceed) (by decide) ht hmark rfl
  have hutf8 : (read .utf8).handed.map Handed.told =
      [(0, 0, "é,", true), (0, 1, "😀", false), (1, 0, "x", false)] := by decide +kernel
  have hsummary : (read .utf8).result.toOption.map (fun s => (s.rows, s.separator, s.lineEnd)) =
      some (2, .char ';', .char '\n') := by decide +kernel
  rw [show (read .utf8).result = .ok s' from hs'] at hsummary
  obtain ⟨hr, hsep, hend⟩ : s'.rows = 2 ∧ s'.separator = .char ';' ∧ s'.lineEnd = .char '\n' := by
    simpa [Except.toOption] using hsummary
  exact ⟨ht, hmark, s, hs, htold.trans hutf8, hrows.trans hr, hseparator.trans hsep,
    hlineEnd.trans hend⟩

end Tabular
