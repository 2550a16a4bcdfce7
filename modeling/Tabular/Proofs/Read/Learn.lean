/-
What a reader that learns makes of the characters of a cell.

* `CellRead` — a cell at the head of a list of characters, with what is known
  after it;
* `Dialect.readNaked`, `Dialect.readEnclosed`, `Dialect.seek` — the runs of a
  cell;
* `Dialect.readCell` — the cell that characters begin with;
* `Reader.Faces` — the characters that a reader has before it;
* `Reader.Faces.readCell` — it reads that cell, and no more.

Design notes: whether CR LF is folded may change as the line end is learned,
so characters are folded one at a time.  A reader that knows everything from
the start reads whole runs, for which there is a simpler grammar.
-/
import Tabular.Proofs.Read.Alike
import Tabular.Proofs.Read.Cell
import Tabular.Proofs.Read.Scan

namespace Tabular

/-- A cell at the head of a list of characters. -/
structure CellRead where
  /-- The characters that its text is made of. -/
  kept : List Scanned
  enclosed : Bool
  ending : CellEnd
  /-- Where its last character ends. -/
  stop : Nat
  /-- The dialect as far as it is known after the cell. -/
  dialect : Dialect
  /-- What comes after its terminator. -/
  rest : List Scanned

/-- The cell with one more character before the others. -/
def CellRead.keep (c : Scanned) (p : CellRead) : CellRead := { p with kept := c :: p.kept }

/-- Not more than so many characters come after a cell, and none if the input
ends it. -/
structure CellRead.Leaves (p : CellRead) (count : Nat) : Prop where
  inputEnd : p.ending = .inputEnd → p.rest = []
  length_le : p.rest.length ≤ count

theorem CellRead.Leaves.mono {p : CellRead} {m n : Nat} (h : p.Leaves m) (hle : m ≤ n) :
    p.Leaves n := ⟨h.inputEnd, Nat.le_trans h.length_le hle⟩

theorem CellRead.Leaves.keep {p : CellRead} {n : Nat} (h : p.Leaves n) (c : Scanned) :
    (p.keep c).Leaves n := ⟨h.inputEnd, h.length_le⟩

namespace Dialect

/-- The rest of a cell outside quotes, from `c` on, in a text that ends at
`stop`. -/
def readNaked (d : Dialect) (stop : Nat) (c : Scanned) (cs : List Scanned) : CellRead :=
  match d.terminator? c.char with
  | some (t, d) => ⟨[], false, .terminator t, c.span.start, d, cs⟩
  | none =>
    match _h : uncons d.folds cs with
    | none => ⟨[c], false, .inputEnd, stop, d, []⟩
    | some (c', cs') => (readNaked d stop c' cs').keep c
termination_by cs.length
decreasing_by exact length_lt_of_uncons _h

theorem enclosed_readNaked (d : Dialect) (stop : Nat) (c : Scanned) (cs : List Scanned) :
    (d.readNaked stop c cs).enclosed = false := by
  fun_induction readNaked d stop c cs with
  | case1 => rfl
  | case2 => rfl
  | case3 c cs ht c' cs' hsome ih => exact ih

/-- The rest of a cell after the opening quote `q`. -/
def readEnclosed (d : Dialect) (stop : Nat) (q : Char) (cs : List Scanned) : CellRead :=
  match _h : uncons d.folds cs with
  | none => ⟨[], false, .inputEnd, stop, d, []⟩
  | some (c, cs') =>
    if c.char ≠ q then (readEnclosed d stop q cs').keep c
    else
      match _h' : uncons d.folds cs' with
      | none => ⟨[], false, .inputEnd, stop, d, []⟩
      | some (c', cs'') =>
        if c'.char = q then (readEnclosed d stop q cs'').keep c else d.readNaked stop c' cs''
termination_by cs.length
decreasing_by
  · exact length_lt_of_uncons _h
  · exact Nat.lt_trans (length_lt_of_uncons _h') (length_lt_of_uncons _h)

/-- The first character of a cell after whitespace that ends no cell, with
what comes after it and what is then known. -/
def seek (d : Dialect) (whitespace : List Char) (cs : List Scanned) :
    Option (Scanned × List Scanned × Dialect) :=
  match _h : uncons d.folds cs with
  | none => none
  | some (c, cs') =>
    if whitespace.contains c.char then
      match d.terminator? c.char with
      | some (_, d') => some (c, cs', d')
      | none => seek d whitespace cs'
    else some (c, cs', d)
termination_by cs.length
decreasing_by exact length_lt_of_uncons _h

/-- The first character of a cell. -/
def readFirst (d : Dialect) (whitespace : List Char) (cs : List Scanned) :
    Option (Scanned × List Scanned × Dialect) :=
  if d.trims then d.seek whitespace cs else (uncons d.folds cs).map fun (c, cs) => (c, cs, d)

/-- The cell that begins with `c`. -/
def readFrom (d : Dialect) (stop : Nat) (c : Scanned) (cs : List Scanned) : CellRead :=
  match d.opens? c.char with
  | some d => { d.readEnclosed stop c.char cs with enclosed := true }
  | none => d.readNaked stop c cs

/-- The cell that characters begin with. -/
def readCell (d : Dialect) (stop : Nat) (whitespace : List Char) (cs : List Scanned) : CellRead :=
  match d.readFirst whitespace cs with
  | none => ⟨[], false, .inputEnd, stop, d, []⟩
  | some (c, cs, d) => d.readFrom stop c cs

theorem readCell_nil (d : Dialect) (stop : Nat) (whitespace : List Char) :
    d.readCell stop whitespace [] = ⟨[], false, .inputEnd, stop, d, []⟩ := by
  have hfirst : d.readFirst whitespace [] = none := by
    rw [readFirst, seek, uncons]
    split <;> rfl
  rw [readCell, hfirst]

/-! ### What comes after a cell -/

theorem leaves_readNaked (d : Dialect) (stop : Nat) (c : Scanned) (cs : List Scanned) :
    (d.readNaked stop c cs).Leaves cs.length := by
  fun_induction readNaked d stop c cs with
  | case1 c cs t d' ht => exact ⟨by simp, Nat.le_refl _⟩
  | case2 c cs ht hnone => exact ⟨fun _ => rfl, Nat.zero_le _⟩
  | case3 c cs ht c' cs' hsome ih => exact (ih.mono (Nat.le_of_lt (length_lt_of_uncons hsome))).keep c

theorem leaves_readEnclosed (d : Dialect) (stop : Nat) (q : Char) (cs : List Scanned) :
    (d.readEnclosed stop q cs).Leaves cs.length := by
  fun_induction readEnclosed d stop q cs with
  | case1 cs hnone => exact ⟨fun _ => rfl, Nat.zero_le _⟩
  | case2 cs c cs' hsome hc ih => exact (ih.mono (Nat.le_of_lt (length_lt_of_uncons hsome))).keep c
  | case3 cs c cs' hsome hc hnone => exact ⟨fun _ => rfl, Nat.zero_le _⟩
  | case4 cs c cs' hsome hc c' cs'' hsome' hc' ih =>
    have hlt := Nat.lt_trans (length_lt_of_uncons hsome') (length_lt_of_uncons hsome)
    exact (ih.mono (Nat.le_of_lt hlt)).keep c
  | case5 cs c cs' hsome hc c' cs'' hsome' hc' =>
    have hlt := Nat.lt_trans (length_lt_of_uncons hsome') (length_lt_of_uncons hsome)
    exact (leaves_readNaked ..).mono (Nat.le_of_lt hlt)

theorem length_lt_of_seek {d d' : Dialect} {whitespace : List Char} {c : Scanned}
    {cs rest : List Scanned} (h : d.seek whitespace cs = some (c, rest, d')) :
    rest.length < cs.length := by
  fun_induction seek d whitespace cs with
  | case1 cs hnone => simp at h
  | case2 cs c' cs' hsome hc t d'' ht =>
    obtain ⟨-, rfl, -⟩ : _ ∧ cs' = rest ∧ _ := by simpa using h
    exact length_lt_of_uncons hsome
  | case3 cs c' cs' hsome hc ht ih => exact Nat.lt_trans (ih h) (length_lt_of_uncons hsome)
  | case4 cs c' cs' hsome hc =>
    obtain ⟨-, rfl, -⟩ : _ ∧ cs' = rest ∧ _ := by simpa using h
    exact length_lt_of_uncons hsome

theorem length_lt_of_readFirst {d d' : Dialect} {whitespace : List Char} {c : Scanned}
    {cs rest : List Scanned} (h : d.readFirst whitespace cs = some (c, rest, d')) :
    rest.length < cs.length := by
  rw [readFirst] at h
  split at h
  · exact length_lt_of_seek h
  · obtain ⟨⟨c', cs'⟩, hsome, heq⟩ := Option.map_eq_some_iff.mp h
    obtain ⟨-, rfl, -⟩ : _ ∧ cs' = rest ∧ _ := by simpa using heq
    exact length_lt_of_uncons hsome

theorem leaves_readFrom (d : Dialect) (stop : Nat) (c : Scanned) (cs : List Scanned) :
    (d.readFrom stop c cs).Leaves cs.length := by
  rw [readFrom]
  split
  · exact ⟨(leaves_readEnclosed ..).inputEnd, (leaves_readEnclosed ..).length_le⟩
  · exact leaves_readNaked ..

/-- Nothing is left when the input ends. -/
theorem rest_eq_nil {d : Dialect} {stop : Nat} {whitespace : List Char} {cs : List Scanned}
    (h : (d.readCell stop whitespace cs).ending = .inputEnd) :
    (d.readCell stop whitespace cs).rest = [] := by
  rw [readCell] at h ⊢
  cases hf : d.readFirst whitespace cs with
  | none => rfl
  | some p =>
    rw [hf] at h
    exact (leaves_readFrom ..).inputEnd h

/-- A terminator takes a character. -/
theorem length_rest_lt {d : Dialect} {stop : Nat} {whitespace : List Char} {cs : List Scanned}
    {t : Terminator} (h : (d.readCell stop whitespace cs).ending = .terminator t) :
    (d.readCell stop whitespace cs).rest.length < cs.length := by
  rw [readCell] at h ⊢
  cases hf : d.readFirst whitespace cs with
  | none => simp [hf] at h
  | some p => exact Nat.lt_of_le_of_lt (leaves_readFrom ..).length_le (length_lt_of_readFirst hf)

/-! ### What a cell tells of the dialect -/

variable {d : Dialect} (stop : Nat)

theorem learnsTo_of_seek {e : Dialect} {whitespace : List Char} {c : Scanned}
    {cs rest : List Scanned} (h : d.seek whitespace cs = some (c, rest, e)) : d.LearnsTo e := by
  fun_induction seek d whitespace cs with
  | case1 cs hnone => simp at h
  | case2 cs c' cs' hsome hc t d' ht =>
    obtain ⟨-, -, rfl⟩ : _ ∧ _ ∧ d' = e := by simpa using h
    exact .of_terminator ht
  | case3 cs c' cs' hsome hc ht ih => exact ih h
  | case4 cs c' cs' hsome hc =>
    obtain ⟨-, -, rfl⟩ : _ ∧ _ ∧ d = e := by simpa using h
    exact .refl d

theorem learnsTo_of_readFirst {e : Dialect} {whitespace : List Char} {c : Scanned}
    {cs rest : List Scanned} (h : d.readFirst whitespace cs = some (c, rest, e)) :
    d.LearnsTo e := by
  rw [readFirst] at h
  split at h
  · exact learnsTo_of_seek h
  · obtain ⟨p, -, heq⟩ := Option.map_eq_some_iff.mp h
    obtain ⟨-, -, rfl⟩ : _ ∧ _ ∧ d = e := by simpa using heq
    exact .refl d

theorem learnsTo_readNaked (c : Scanned) (cs : List Scanned) :
    d.LearnsTo (d.readNaked stop c cs).dialect := by
  fun_induction readNaked d stop c cs with
  | case1 c cs t d' ht => exact .of_terminator ht
  | case2 c cs ht hnone => exact .refl d
  | case3 c cs ht c' cs' hsome ih => exact ih

theorem learnsTo_readEnclosed (q : Char) (cs : List Scanned) :
    d.LearnsTo (d.readEnclosed stop q cs).dialect := by
  fun_induction readEnclosed d stop q cs with
  | case1 cs hnone | case3 cs c cs' hsome hc hnone => exact .refl d
  | case2 cs c cs' hsome hc ih | case4 cs c cs' hsome hc c' cs'' hsome' hc' ih => exact ih
  | case5 cs c cs' hsome hc c' cs'' hsome' hc' => exact learnsTo_readNaked ..

/-- What a cell tells of the dialect. -/
theorem learnsTo_readCell (whitespace : List Char) (cs : List Scanned) :
    d.LearnsTo (d.readCell stop whitespace cs).dialect := by
  rw [readCell]
  cases h : d.readFirst whitespace cs with
  | none => exact .refl d
  | some p =>
    obtain ⟨c, rest, e⟩ := p
    refine (learnsTo_of_readFirst h).trans ?_
    dsimp only
    rw [readFrom]
    split
    · rename_i ho
      exact (LearnsTo.of_opens ho).trans (learnsTo_readEnclosed ..)
    · exact learnsTo_readNaked ..

end Dialect

/-! ### The reader -/

namespace Reader

/-- The characters that a reader has before it, which end at offset `stop`. -/
structure Faces (r : Reader) (e : Encoding) (stop : Nat) (cs : List Scanned) : Prop where
  gives : r.chars.Gives r.strategy stop cs
  encoding : r.encoding = e

namespace Faces

variable {r : Reader} {e : Encoding} {stop : Nat} {c : Scanned} {cs rest : List Scanned}

/-- What else there is to a reader does not matter. -/
theorem congr {r' : Reader} (h : r.Faces e stop cs) (hc : r'.chars = r.chars)
    (hs : r'.strategy = r.strategy) : r'.Faces e stop cs := by
  obtain ⟨hg, he⟩ := h
  refine ⟨by rw [hc, hs]; exact hg, ?_⟩
  rw [← he, Reader.encoding, Reader.encoding, hc]

/-- Which of the strategies decodes makes no difference to what comes. -/
theorem of_decoding {s : Strategy} (h : r.Faces e stop cs) (hr : r.strategy ≠ .raw)
    (hs : s ≠ .raw) : Faces { r with strategy := s } e stop cs :=
  ⟨h.gives.of_decoding hr hs, h.encoding⟩

theorem position (h : r.Faces e stop cs) : r.position = offsetOf stop cs := h.gives.position

theorem next_nil (h : r.Faces e stop []) :
    ∃ chars, r.next = .ok none { r with chars } ∧ Faces { r with chars } e stop [] := by
  obtain ⟨chars, hnext, hg, he⟩ := h.gives.next_nil r.dialect.folds
  exact ⟨chars, by rw [Reader.next, hnext], hg, he.trans h.encoding⟩

theorem next (h : r.Faces e stop cs) (hc : uncons r.dialect.folds cs = some (c, rest)) :
    ∃ chars, r.next = .ok (some c) { r with chars } ∧ Faces { r with chars } e stop rest := by
  obtain ⟨chars, hnext, hg, he⟩ := h.gives.next hc
  exact ⟨chars, by rw [Reader.next, hnext], hg, he.trans h.encoding⟩

theorem append (h : r.Faces e stop cs) (c : Scanned) : (r.append c).Faces e stop cs :=
  h.congr rfl rfl

/-- The rest of a cell outside quotes. -/
theorem readNaked (h : r.Faces e stop cs) (c : Scanned) :
    let p := r.dialect.readNaked stop c cs
    ∃ chars, r.readNaked c = .ok (p.ending, p.stop)
        { r with chars, dialect := p.dialect, buffer := r.buffer.appendAll r.strategy p.kept } ∧
      Faces { r with chars, dialect := p.dialect } e stop p.rest := by
  generalize hd : r.dialect = d
  fun_induction Dialect.readNaked d stop c cs generalizing r with
  | case1 c cs t d' ht =>
    refine ⟨r.chars, ?_, h.congr rfl rfl⟩
    rw [Reader.readNaked, hd, ht]
    rfl
  | case2 c cs ht hnone =>
    obtain rfl := uncons_eq_none hnone
    obtain ⟨chars, hnext, hf⟩ := (h.append c).next_nil
    refine ⟨chars, ?_, hf.congr rfl rfl⟩
    rw [Reader.readNaked, hd, ht]
    dsimp only
    rw [hnext]
    dsimp only
    rw [hf.position]
    subst hd
    rfl
  | case3 c cs ht c' cs' hsome ih =>
    obtain ⟨chars, hnext, hf⟩ := (h.append c).next (by rw [Reader.append, hd]; exact hsome)
    obtain ⟨chars', hread, hf'⟩ := ih hf hd
    refine ⟨chars', ?_, hf'.congr rfl rfl⟩
    rw [Reader.readNaked, hd, ht]
    dsimp only
    rw [hnext]
    dsimp only
    rw [hread]
    rfl

/-- The rest of a cell after the opening quote. -/
theorem readEnclosed (h : r.Faces e stop cs) (hb : r.buffer.CanRetract r.strategy) (q : Char) :
    let p := r.dialect.readEnclosed stop q cs
    ∃ chars phase, r.readEnclosed q = .ok (p.ending, p.stop)
        { r with
          chars
          dialect := p.dialect
          buffer := r.buffer.appendAll r.strategy p.kept
          phase } ∧
      Faces { r with chars, dialect := p.dialect } e stop p.rest := by
  generalize hd : r.dialect = d
  fun_induction Dialect.readEnclosed d stop q cs generalizing r with
  | case1 cs hnone =>
    obtain rfl := uncons_eq_none hnone
    obtain ⟨chars, hnext, hf⟩ := h.next_nil
    refine ⟨chars, r.phase, ?_, hf.congr rfl rfl⟩
    rw [Reader.readEnclosed, hnext]
    dsimp only
    rw [hf.position]
    subst hd
    rfl
  | case2 cs c cs' hsome hc ih =>
    obtain ⟨chars, hnext, hf⟩ := h.next (hd ▸ hsome)
    obtain ⟨chars', phase, hread, hf'⟩ := ih (hf.append c) (hb.append c) hd
    refine ⟨chars', phase, ?_, hf'.congr rfl rfl⟩
    rw [Reader.readEnclosed, hnext]
    dsimp only
    rw [if_pos hc, hread]
    rfl
  | case3 cs c cs' hsome hc hnone =>
    obtain rfl := uncons_eq_none hnone
    obtain ⟨chars, hnext, hf⟩ := h.next (hd ▸ hsome)
    obtain ⟨chars', hnext', hf'⟩ := (hf.append c).next_nil
    refine ⟨chars', r.phase, ?_, hf'.congr rfl rfl⟩
    rw [Reader.readEnclosed, hnext]
    dsimp only
    rw [if_neg hc, hnext']
    dsimp only
    rw [hf'.position]
    simp only [Reader.append, CellBuffer.retract_append hb]
    subst hd
    rfl
  | case4 cs c cs' hsome hc c' cs'' hsome' hc' ih =>
    obtain ⟨chars, hnext, hf⟩ := h.next (hd ▸ hsome)
    obtain ⟨chars', hnext', hf'⟩ := (hf.append c).next (by rw [Reader.append, hd]; exact hsome')
    obtain ⟨chars'', phase, hread, hf''⟩ := ih hf' (hb.append c) hd
    refine ⟨chars'', phase, ?_, hf''.congr rfl rfl⟩
    rw [Reader.readEnclosed, hnext]
    dsimp only
    rw [if_neg hc, hnext']
    dsimp only
    rw [if_pos hc', hread]
    rfl
  | case5 cs c cs' hsome hc c' cs'' hsome' hc' =>
    obtain ⟨chars, hnext, hf⟩ := h.next (hd ▸ hsome)
    obtain ⟨chars', hnext', hf'⟩ := (hf.append c).next (by rw [Reader.append, hd]; exact hsome')
    -- The quote was not doubled, so it is taken back, and the cell goes on without quotes.
    let t : Reader := { Reader.append { r with chars } c with
      chars := chars', buffer := (r.buffer.append r.strategy c).retract, phase := .afterEnclosed }
    have ht : t.Faces e stop cs'' := hf'.congr rfl rfl
    obtain ⟨chars'', hread, hf''⟩ := ht.readNaked c'
    refine ⟨chars'', .afterEnclosed, ?_, (hd ▸ hf'' :).congr rfl rfl⟩
    rw [Reader.readEnclosed, hnext]
    dsimp only
    rw [if_neg hc, hnext']
    dsimp only
    rw [if_neg hc']
    refine hread.trans ?_
    subst hd
    simp only [t, Reader.append, CellBuffer.retract_append hb]

/-- Whitespace that ends no cell is passed over. -/
theorem skipWhitespace (h : r.Faces e stop cs) :
    match r.dialect.seek r.buffer.whitespace cs with
    | none => ∃ chars, r.skipWhitespace = .ok none { r with chars } ∧
        Faces { r with chars } e stop []
    | some (c, rest, dialect) => ∃ chars, r.skipWhitespace = .ok (some c) { r with chars, dialect } ∧
        Faces { r with chars, dialect } e stop rest := by
  generalize hd : r.dialect = d
  generalize hw : r.buffer.whitespace = whitespace
  fun_induction Dialect.seek d whitespace cs generalizing r with
  | case1 cs hnone =>
    obtain rfl := uncons_eq_none hnone
    obtain ⟨chars, hnext, hf⟩ := h.next_nil
    subst hd
    refine ⟨chars, ?_, hf⟩
    rw [Reader.skipWhitespace, hnext]
  | case2 cs c cs' hsome hc t d' ht =>
    obtain ⟨chars, hnext, hf⟩ := h.next (hd ▸ hsome)
    refine ⟨chars, ?_, hf.congr rfl rfl⟩
    rw [Reader.skipWhitespace, hnext]
    dsimp only
    rw [CellBuffer.isWhitespace, hw, if_pos hc, hd, ht]
  | case3 cs c cs' hsome hc ht ih =>
    obtain ⟨chars, hnext, hf⟩ := h.next (hd ▸ hsome)
    have hgoes : r.skipWhitespace = Reader.skipWhitespace { r with chars } := by
      rw [Reader.skipWhitespace, hnext]
      dsimp only
      rw [CellBuffer.isWhitespace, hw, if_pos hc, hd, ht]
    rw [hgoes]
    exact ih hf hd hw
  | case4 cs c cs' hsome hc =>
    obtain ⟨chars, hnext, hf⟩ := h.next (hd ▸ hsome)
    refine ⟨chars, ?_, hf.congr rfl rfl⟩
    rw [Reader.skipWhitespace, hnext]
    dsimp only
    rw [CellBuffer.isWhitespace, hw, if_neg hc]
    subst hd
    rfl

theorem readFirst (h : r.Faces e stop cs) :
    match r.dialect.readFirst r.buffer.whitespace cs with
    | none => ∃ chars, r.readFirst = .ok none { r with chars } ∧ Faces { r with chars } e stop []
    | some (c, rest, dialect) => ∃ chars, r.readFirst = .ok (some c) { r with chars, dialect } ∧
        Faces { r with chars, dialect } e stop rest := by
  rw [Reader.readFirst, Dialect.readFirst]
  by_cases ht : r.dialect.trims
  · rw [if_pos ht, if_pos ht]
    exact h.skipWhitespace
  · rw [if_neg ht, if_neg ht]
    cases hc : uncons r.dialect.folds cs with
    | none =>
      obtain rfl := uncons_eq_none hc
      exact h.next_nil
    | some p =>
      obtain ⟨chars, hnext, hf⟩ := h.next hc
      exact ⟨chars, hnext, hf⟩

theorem readFirst_none (h : r.Faces e stop cs) {whitespace : List Char}
    (hw : r.buffer.whitespace = whitespace) (hc : r.dialect.readFirst whitespace cs = none) :
    ∃ chars, r.readFirst = .ok none { r with chars } ∧ Faces { r with chars } e stop [] := by
  have hfirst := h.readFirst
  rwa [hw, hc] at hfirst

theorem readFirst_some (h : r.Faces e stop cs) {whitespace : List Char} {dialect : Dialect}
    (hw : r.buffer.whitespace = whitespace)
    (hc : r.dialect.readFirst whitespace cs = some (c, rest, dialect)) :
    ∃ chars, r.readFirst = .ok (some c) { r with chars, dialect } ∧
      Faces { r with chars, dialect } e stop rest := by
  have hfirst := h.readFirst
  rwa [hw, hc] at hfirst

/-- The rest of a cell that begins with `c`. -/
theorem readFrom (h : r.Faces e stop cs) (hb : r.buffer.CanRetract r.strategy ∨
      r.dialect.enclosing = .off) (c : Scanned) :
    let p := r.dialect.readFrom stop c cs
    ∃ chars phase, r.readFrom c = .ok (p.ending, p.stop)
        { r with
          chars
          dialect := p.dialect
          buffer := { r.buffer.appendAll r.strategy p.kept with
            enclosed := p.enclosed || r.buffer.enclosed }
          phase } ∧
      Faces { r with chars, dialect := p.dialect } e stop p.rest := by
  rw [Reader.readFrom, Dialect.readFrom]
  cases ho : r.dialect.opens? c.char with
  | some d =>
    have hb := hb.resolve_right (by rintro hoff; simp [Dialect.opens?, hoff, Delimiter.accepts] at ho)
    let t : Reader :=
      { r with dialect := d, buffer := { r.buffer with enclosed := true }, phase := .enclosed }
    have ht : t.Faces e stop cs := h.congr rfl rfl
    obtain ⟨chars, phase, hread, hf⟩ := ht.readEnclosed hb c.char
    refine ⟨chars, phase, hread.trans ?_, hf.congr rfl rfl⟩
    simp only [t, CellBuffer.appendAll_mark, Bool.true_or]
  | none =>
    have ht : Faces { r with phase := .naked } e stop cs := h.congr rfl rfl
    obtain ⟨chars, hread, hf⟩ := ht.readNaked c
    refine ⟨chars, .naked, hread.trans ?_, hf.congr rfl rfl⟩
    dsimp only
    rw [Dialect.enclosed_readNaked, Bool.false_or, ← CellBuffer.enclosed_appendAll r.buffer]

/-- A reader reads the cell that comes next, and its terminator. -/
theorem readCell (h : r.Faces e stop cs) (hs : r.strategy ≠ .view ∨ r.dialect.enclosing = .off) :
    let p := r.dialect.readCell stop r.buffer.whitespace cs
    ∃ chars, r.readCell = .ok p.ending
        { r with
          chars
          dialect := p.dialect
          buffer := { r.buffer.clear.appendAll r.strategy p.kept with
            enclosed := p.enclosed
            rawBytes := p.stop - offsetOf stop cs }
          phase := p.ending.phase } ∧
      Faces { r with chars, dialect := p.dialect } e stop p.rest := by
  have ht : Faces { r with buffer := r.buffer.clear, phase := .seeking } e stop cs :=
    h.congr rfl rfl
  rw [Reader.readCell, h.position, Dialect.readCell]
  cases hr : r.dialect.readFirst r.buffer.whitespace cs with
  | none =>
    obtain ⟨chars, hread, hf⟩ := ht.readFirst_none rfl hr
    refine ⟨chars, ?_, hf.congr rfl rfl⟩
    rw [hread]
    dsimp only
    rw [hf.position]
    rfl
  | some p =>
    obtain ⟨c, rest, d⟩ := p
    obtain ⟨chars, hread, hf⟩ := ht.readFirst_some rfl hr
    have hd : r.dialect.LearnsTo d := (learns_readFirst hread :)
    -- Views cannot take a quote back, and are not kept where there are quotes.
    have hb : r.buffer.clear.CanRetract r.strategy ∨ d.enclosing = .off := by
      rcases hs with hs | hoff
      · left
        cases hr : r.strategy with
        | raw | decode => exact .inl rfl
        | discard => exact .inr ⟨rfl, rfl⟩
        | view => exact absurd hr hs
      · exact .inr (hd.enclosing.off_iff.mpr hoff)
    obtain ⟨chars', phase, hread', hf'⟩ := hf.readFrom hb c
    refine ⟨chars', ?_, hf'.congr rfl rfl⟩
    rw [hread]
    dsimp only
    rw [hread']
    simp [CellBuffer.clear]

end Faces

end Reader

end Tabular
