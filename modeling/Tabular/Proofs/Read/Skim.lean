/-
Cells that are passed over.

* `Reader.Skims` — a reader that decodes characters, but not to keep them;
* `Reader.Skimmed` — it has come to the end of a cell of a line;
* `Reader.Skims.readCell` — where its dialect finds lines by plain characters
  only, that is the line that could be read unit by unit.

Design notes: the two readings have different characters before them, and more
or fewer of them.  So a cell is followed along the one that decodes, and its
characters are put in for those that they stand for.
-/
import Tabular.Proofs.Read.Line

namespace Tabular

namespace Dialect

variable {d : Dialect} {k : Handing} {x : Scanned} {cs : List Scanned}

/-- What comes after a quote says whether it is the closing one. -/
theorem line_readEnclosed_quote {q : Char} {rest : List Scanned}
    (hc : uncons d.folds cs = some (x, rest)) (hx : x.char = q) :
    (d.readEnclosed k.stop q cs).line k =
      match uncons d.folds rest with
      | none => ⟨.inputEnd, d, []⟩
      | some (y, rest) =>
        if y.char = q then (d.readEnclosed k.stop q rest).line k
        else (d.readNaked k.stop y rest).line k := by
  rw [readEnclosed, hc]
  dsimp only
  rw [if_neg (not_not_intro hx)]
  cases uncons d.folds rest with
  | none => rfl
  | some p =>
    dsimp only
    split
    · exact CellRead.line_keep ..
    · rfl

/-- What ends a line is the line end from then on. -/
theorem lineEnd_of_terminator? {d' : Dialect} {c : Char}
    (h : d.terminator? c = some (.lineEnd, d')) : d'.lineEnd = .char c := by
  rw [terminator?] at h
  split_ifs at h
  · simp at h
  · obtain ⟨-, rfl⟩ := Prod.mk.inj (Option.some.inj h)
    rfl

end Dialect

/-! ### The reader -/

namespace Reader

/-- A reader that decodes the characters of a cell, but not to keep them. -/
structure Skims (r : Reader) (origin : Dialect) (e : Encoding) (bytes : List UInt8)
    (xs : List Scanned) : Prop where
  chars : r.chars.Trails bytes xs
  encoding : r.encoding = e
  strategy : r.strategy = .discard
  learns : origin.LearnsTo r.dialect

/-- The characters can be looked at again, unless a carriage return has just
turned out to end lines, and the character after it, which has been decoded by
now, is not plain. -/
def Resumes (r : Reader) (origin : Dialect) (e : Encoding) (bytes : List UInt8)
    (xs : List Scanned) : Prop :=
  r.chars.Gives .raw bytes.length xs ∨ origin.folds ∧ r.dialect.lineEnd = .char '\r' ∧
    ∃ ys, r.chars.Gives .raw bytes.length ys ∧ e.Recasts bytes.length xs ys

/-- It has come to the end of a cell, and the line comes to `o`. -/
inductive Skimmed (r : Reader) (origin : Dialect) (e : Encoding) (bytes : List UInt8) :
    CellEnd → CellOutcome → Prop
  | separator {xs : List Scanned} (h : r.Skims origin e bytes xs) :
      Skimmed r origin e bytes (.terminator .separator) (r.dialect.line (.units e bytes) xs)
  | ended {ending : CellEnd} {xs : List Scanned} (hend : ending ≠ .terminator .separator)
      (h : r.Skims origin e bytes xs) (hresumes : r.Resumes origin e bytes xs) :
      Skimmed r origin e bytes ending ⟨ending, r.dialect, xs⟩

/-- Only these fields of a reader matter. -/
theorem Skimmed.congr {r r' : Reader} {origin : Dialect} {e : Encoding} {bytes : List UInt8}
    {ending : CellEnd} {o : CellOutcome} (h : r.Skimmed origin e bytes ending o)
    (hc : r'.chars = r.chars) (hd : r'.dialect = r.dialect) (hs : r'.strategy = r.strategy) :
    r'.Skimmed origin e bytes ending o := by
  have hskims {xs : List Scanned} (h : r.Skims origin e bytes xs) : r'.Skims origin e bytes xs :=
    ⟨hc ▸ h.chars, (congrArg (fun cs : Chars => cs.units.encoding) hc).trans h.encoding,
      hs.trans h.strategy, hd ▸ h.learns⟩
  cases h with
  | separator h =>
    rw [← hd]
    exact .separator (hskims h)
  | ended hend h hresumes =>
    rw [Resumes, ← hc, ← hd] at hresumes
    rw [← hd]
    exact .ended hend (hskims h) hresumes

namespace Skims

variable {r r' : Reader} {origin : Dialect} {e : Encoding} {bytes : List UInt8}
  {xs : List Scanned} {c : Scanned} {q : Char}

/-- Only these fields of a reader matter. -/
theorem congr (h : r.Skims origin e bytes xs) (hc : r'.chars = r.chars)
    (hd : r.dialect.LearnsTo r'.dialect) (hs : r'.strategy = r.strategy) :
    r'.Skims origin e bytes xs :=
  ⟨hc ▸ h.chars, (congrArg (fun cs : Chars => cs.units.encoding) hc).trans h.encoding,
    hs.trans h.strategy, h.learns.trans hd⟩

theorem resumes_nil (h : r.Skims origin e bytes []) : r.Resumes origin e bytes [] :=
  .inl h.chars.gives_nil

theorem append (h : r.Skims origin e bytes xs) (c : Scanned) :
    (r.append c).Skims origin e bytes xs := h.congr rfl (.refl _) rfl

theorem next (h : r.Skims origin e bytes xs) :
    (xs = [] ∧ ∃ r', r.next = .ok none r' ∧ r'.Skims origin e bytes [] ∧
      r'.dialect = r.dialect ∧ r'.buffer = r.buffer) ∨
    ∃ c r' rest, r.next = .ok (some c) r' ∧ r'.Skims origin e bytes rest ∧
      r'.dialect = r.dialect ∧ r'.buffer = r.buffer ∧ e.Takes r.dialect.folds xs c.char rest ∧
      (e.isPlain c.char → r'.chars.Resumes bytes.length origin.folds c.char rest) := by
  obtain ⟨hchars, rfl, hstrategy, hlearns⟩ := h
  rw [Reader.next, hstrategy]
  rcases hchars.next r.dialect.folds with ⟨rfl, cs, hnext, hcs, he⟩ |
    ⟨c, cs, rest, hnext, hcs, he, htakes, hresumes⟩
  · rw [hnext]
    exact .inl ⟨rfl, _, rfl, ⟨hcs, he, rfl, hlearns⟩, rfl, rfl⟩
  · rw [hnext]
    refine .inr ⟨c, _, rest, rfl, ⟨hcs, he, rfl, hlearns⟩, rfl, rfl, htakes, fun hc => ?_⟩
    exact (hresumes hc).imp_right (And.imp_left hlearns.folds_of)

theorem not_error {x : Error} {t : Reader} (h : r.Skims origin e bytes xs)
    (hn : r.next = .error x t) : False := by
  rcases h.next with ⟨-, r', hnext, -⟩ | ⟨c, r', rest, hnext, -⟩
  all_goals
    rw [hn] at hnext
    simp at hnext

theorem of_next_none (h : r.Skims origin e bytes xs) (hn : r.next = .ok none r') :
    xs = [] ∧ r'.Skims origin e bytes [] ∧ r'.dialect = r.dialect := by
  rcases h.next with ⟨hxs, t, hnext, ht, hdialect, -⟩ | ⟨c, t, rest, hnext, -⟩
  · rw [hn] at hnext
    obtain ⟨-, rfl⟩ := EStateM.Result.ok.inj hnext
    exact ⟨hxs, ht, hdialect⟩
  · rw [hn] at hnext
    simp at hnext

theorem of_next_some (h : r.Skims origin e bytes xs) (hn : r.next = .ok (some c) r') :
    ∃ rest, r'.Skims origin e bytes rest ∧ r'.dialect = r.dialect ∧ r'.buffer = r.buffer ∧
      e.Takes r.dialect.folds xs c.char rest ∧
      (e.isPlain c.char → r'.chars.Resumes bytes.length origin.folds c.char rest) := by
  rcases h.next with ⟨-, t, hnext, -⟩ | ⟨d, t, rest, hnext, ht⟩
  · rw [hn] at hnext
    simp at hnext
  · rw [hn] at hnext
    obtain ⟨hd, rfl⟩ := EStateM.Result.ok.inj hnext
    obtain rfl := Option.some.inj hd
    exact ⟨rest, ht⟩

/-- The rest of a cell outside quotes. -/
theorem readNaked (h : r.Skims origin e bytes xs) (hplain : origin.LinesPlainIn e) (c : Scanned)
    (hc : e.isPlain c.char → r.chars.Resumes bytes.length origin.folds c.char xs) :
    let k := Handing.units e bytes
    ∃ ending n r', r.readNaked c = .ok (ending, n) r' ∧
      r'.Skimmed origin e bytes ending ((r.dialect.readNaked k.stop c xs).line k) := by
  intro k
  fun_induction Reader.readNaked c r generalizing xs with
  | case1 c r t dialect ht =>
    have hd := hplain.learns h.learns
    have hskims : Skims { r with dialect := dialect } origin e bytes xs :=
      h.congr rfl (.of_terminator ht) rfl
    cases t with
    | separator =>
      rw [Dialect.line_readNaked_of_some ht]
      exact ⟨_, _, _, rfl, .separator hskims⟩
    | lineEnd =>
      have hchar : e.isPlain c.char := by
        by_contra hnot
        rcases hd.terminator?_of_not_plain hnot with hnone | hsome
        · simp [hnone] at ht
        · simp [hsome] at ht
      have hlineEnd := Dialect.lineEnd_of_terminator? ht
      have hresumes : Resumes { r with dialect := dialect } origin e bytes xs := by
        refine (hc hchar).imp_right ?_
        rintro ⟨hfolds, hcr, hrecasts⟩
        exact ⟨hfolds, hcr ▸ hlineEnd, h.encoding ▸ hrecasts⟩
      rw [Dialect.readNaked, ht]
      exact ⟨_, _, _, rfl, .ended (by simp) hskims hresumes⟩
  | case2 c r ht x t hn => exact ((h.append c).not_error hn).elim
  | case3 c r ht t hn =>
    obtain ⟨rfl, hskims, hdialect⟩ := (h.append c).of_next_none hn
    rw [Dialect.line_readNaked_of_none ht, Dialect.lineOn_of_none rfl,
      show r.dialect = t.dialect from hdialect.symm]
    exact ⟨_, _, _, rfl, .ended (by simp) hskims hskims.resumes_nil⟩
  | case4 c r ht d t hn ih =>
    obtain ⟨rest, hskims, hdialect, -, ⟨x, block, huncons, hshows⟩, hresumes⟩ :=
      (h.append c).of_next_some hn
    have huncons : uncons r.dialect.folds xs = some (x, block ++ rest) := huncons
    have hdialect : t.dialect = r.dialect := hdialect
    have hline : (r.dialect.readNaked k.stop c xs).line k =
        (t.dialect.readNaked k.stop d rest).line k := by
      rw [Dialect.line_readNaked_of_none ht, Dialect.lineOn_of_some huncons,
        hshows.line_readNaked (hplain.learns h.learns), hdialect]
    rw [hline]
    exact ih hskims hresumes

/-- The rest of a cell after the opening quote. -/
theorem readEnclosed (h : r.Skims origin e bytes xs) (hplain : origin.LinesPlainIn e)
    (hq : e.isPlain q) :
    let k := Handing.units e bytes
    ∃ ending n r', r.readEnclosed q = .ok (ending, n) r' ∧
      r'.Skimmed origin e bytes ending ((r.dialect.readEnclosed k.stop q xs).line k) := by
  intro k
  fun_induction Reader.readEnclosed q r generalizing xs with
  | case1 r x t hn => exact (h.not_error hn).elim
  | case2 r t hn =>
    obtain ⟨rfl, hskims, hdialect⟩ := h.of_next_none hn
    rw [Dialect.readEnclosed, ← hdialect]
    exact ⟨_, _, _, rfl, .ended (by simp) hskims hskims.resumes_nil⟩
  | case3 r c t hn hc ih =>
    obtain ⟨rest, hskims, hdialect, -, ⟨x, block, huncons, hshows⟩, -⟩ := h.of_next_some hn
    have hline : (r.dialect.readEnclosed k.stop q xs).line k =
        (t.dialect.readEnclosed k.stop q rest).line k := by
      rw [Dialect.readEnclosed, huncons, hdialect]
      dsimp only
      rw [if_pos (mt (hshows.char_eq_iff hq).mp hc), CellRead.line_keep]
      exact CellRead.line_congr (hshows.outcome_readEnclosed hq _) k
    rw [hline]
    exact ih (hskims.append c)
  | case4 r c t hn hc x u hn' =>
    obtain ⟨rest, hskims, -⟩ := h.of_next_some hn
    exact ((hskims.append c).not_error hn').elim
  | case5 r c t hn hc u hn' =>
    obtain ⟨rest, hskims, hdialect, -, htakes, -⟩ := h.of_next_some hn
    obtain ⟨rfl, hskims', hdialect'⟩ := (hskims.append c).of_next_none hn'
    obtain rfl : c.char = q := not_not.mp hc
    obtain ⟨x, huncons, hx⟩ := htakes.of_isPlain hq
    rw [Dialect.line_readEnclosed_quote huncons hx, ← hdialect,
      show t.dialect = u.dialect from hdialect'.symm]
    exact ⟨_, _, _, rfl, .ended (by simp) (hskims'.congr rfl (.refl _) rfl) hskims'.resumes_nil⟩
  | case6 r c t hn hc d u hn' hd ih =>
    obtain ⟨rest, hskims, hdialect, -, htakes, -⟩ := h.of_next_some hn
    obtain ⟨rest', hskims', hdialect', -, ⟨y, block, huncons', hshows⟩, -⟩ :=
      (hskims.append c).of_next_some hn'
    obtain rfl : c.char = q := not_not.mp hc
    obtain ⟨x, huncons, hx⟩ := htakes.of_isPlain hq
    have huncons' : uncons r.dialect.folds rest = some (y, block ++ rest') := hdialect ▸ huncons'
    have hline : (r.dialect.readEnclosed k.stop c.char xs).line k =
        (u.dialect.readEnclosed k.stop c.char rest').line k := by
      rw [Dialect.line_readEnclosed_quote huncons hx, huncons',
        show u.dialect = r.dialect from hdialect'.trans hdialect]
      dsimp only
      rw [if_pos ((hshows.char_eq_iff hq).mpr hd)]
      exact CellRead.line_congr (hshows.outcome_readEnclosed hq _) k
    rw [hline]
    exact ih hskims'
  | case7 r c t hn hc d u hn' hd =>
    obtain ⟨rest, hskims, hdialect, -, htakes, -⟩ := h.of_next_some hn
    obtain ⟨rest', hskims', hdialect', -, ⟨y, block, huncons', hshows⟩, hresumes⟩ :=
      (hskims.append c).of_next_some hn'
    obtain rfl : c.char = q := not_not.mp hc
    obtain ⟨x, huncons, hx⟩ := htakes.of_isPlain hq
    have huncons' : uncons r.dialect.folds rest = some (y, block ++ rest') := hdialect ▸ huncons'
    have hline : (r.dialect.readEnclosed k.stop c.char xs).line k =
        (u.dialect.readNaked k.stop d rest').line k := by
      rw [Dialect.line_readEnclosed_quote huncons hx, huncons',
        show u.dialect = r.dialect from hdialect'.trans hdialect]
      dsimp only
      rw [if_neg (mt (hshows.char_eq_iff hq).mp hd),
        hshows.line_readNaked (hplain.learns h.learns)]
    rw [hline]
    have hclosed : Skims { u with buffer := u.buffer.retract, phase := .afterEnclosed } origin e
        bytes rest' := hskims'.congr rfl (.refl _) rfl
    exact hclosed.readNaked hplain d hresumes

/-- The first character of a cell, where whitespace is passed over. -/
theorem skipWhitespace (h : r.Skims origin e bytes xs)
    {whitespace : List Char} (hw : r.buffer.whitespace = whitespace)
    (hwhite : ∀ w ∈ whitespace, e.isPlain w) :
    (r.dialect.seek whitespace xs = none ∧ ∃ r', r.skipWhitespace = .ok none r' ∧
      r'.Skims origin e bytes [] ∧ r'.dialect = r.dialect) ∨
    ∃ c r' rest x block, r.skipWhitespace = .ok (some c) r' ∧ r'.Skims origin e bytes rest ∧
      r.dialect.seek whitespace xs = some (x, block ++ rest, r'.dialect) ∧
      e.Shows c.char (x :: block) ∧
      (e.isPlain c.char → r'.chars.Resumes bytes.length origin.folds c.char rest) := by
  fun_induction Reader.skipWhitespace r generalizing xs with
  | case1 r x t ht => exact (h.not_error ht).elim
  | case2 r t ht =>
    obtain ⟨rfl, hskims, hdialect⟩ := h.of_next_none ht
    refine .inl ⟨?_, t, rfl, hskims, hdialect⟩
    rw [Dialect.seek]
    simp [uncons]
  | case3 r c t ht hwc k dialect hd =>
    obtain ⟨rest, hskims, hdialect, hbuffer, htakes, hresumes⟩ := h.of_next_some ht
    have hmem : whitespace.contains c.char := by rwa [← hw, ← hbuffer]
    have hc := hwhite c.char (List.contains_iff_mem.mp hmem)
    obtain ⟨x, huncons, hx⟩ := htakes.of_isPlain hc
    refine .inr ⟨c, _, rest, x, [], rfl, hskims.congr rfl (.of_terminator hd) rfl, ?_,
      .plain hc hx, hresumes⟩
    rw [Dialect.seek, huncons]
    dsimp only
    rw [hx, if_pos hmem, ← hdialect, hd]
    rfl
  | case4 r c t ht hwc hd ih =>
    obtain ⟨rest, hskims, hdialect, hbuffer, htakes, -⟩ := h.of_next_some ht
    have hmem : whitespace.contains c.char := by rwa [← hw, ← hbuffer]
    obtain ⟨x, huncons, hx⟩ := htakes.of_isPlain (hwhite c.char (List.contains_iff_mem.mp hmem))
    have hseek : r.dialect.seek whitespace xs = t.dialect.seek whitespace rest := by
      rw [Dialect.seek, huncons]
      dsimp only
      rw [hx, if_pos hmem, ← hdialect, hd]
    rw [hseek, ← hdialect]
    exact ih hskims (hbuffer ▸ hw)
  | case5 r c t ht hwc =>
    obtain ⟨rest, hskims, hdialect, hbuffer, ⟨x, block, huncons, hshows⟩, hresumes⟩ :=
      h.of_next_some ht
    have hmem : ¬ whitespace.contains x.char := by
      rw [List.contains_iff_mem]
      intro hmem
      have hc : c.char = x.char := (hshows.char_eq_iff (hwhite _ hmem)).mp rfl
      exact hwc (by rwa [CellBuffer.isWhitespace, hbuffer, hw, hc, List.contains_iff_mem])
    refine .inr ⟨c, t, rest, x, block, rfl, hskims, ?_, hshows, hresumes⟩
    rw [Dialect.seek, huncons]
    dsimp only
    rw [if_neg hmem, hdialect]

theorem readFirst (h : r.Skims origin e bytes xs)
    {whitespace : List Char} (hw : r.buffer.whitespace = whitespace)
    (hwhite : ∀ w ∈ whitespace, e.isPlain w) :
    (r.dialect.readFirst whitespace xs = none ∧ ∃ r', r.readFirst = .ok none r' ∧
      r'.Skims origin e bytes [] ∧ r'.dialect = r.dialect) ∨
    ∃ c r' rest x block, r.readFirst = .ok (some c) r' ∧ r'.Skims origin e bytes rest ∧
      r.dialect.readFirst whitespace xs = some (x, block ++ rest, r'.dialect) ∧
      e.Shows c.char (x :: block) ∧
      (e.isPlain c.char → r'.chars.Resumes bytes.length origin.folds c.char rest) := by
  rw [Reader.readFirst, Dialect.readFirst]
  by_cases ht : r.dialect.trims
  · rw [if_pos ht, if_pos ht]
    exact h.skipWhitespace hw hwhite
  · rw [if_neg ht, if_neg ht]
    rcases h.next with ⟨rfl, r', hnext, hskims, hdialect, -⟩ |
      ⟨c, r', rest, hnext, hskims, hdialect, -, ⟨x, block, huncons, hshows⟩, hresumes⟩
    · exact .inl ⟨rfl, r', hnext, hskims, hdialect⟩
    · refine .inr ⟨c, r', rest, x, block, hnext, hskims, ?_, hshows, hresumes⟩
      rw [huncons, Option.map_some, hdialect]

/-- The rest of a cell that begins with `c`. -/
theorem readFrom (h : r.Skims origin e bytes xs) (hplain : origin.LinesPlainIn e) (c : Scanned)
    (hc : e.isPlain c.char → r.chars.Resumes bytes.length origin.folds c.char xs) :
    let k := Handing.units e bytes
    ∃ ending n r', r.readFrom c = .ok (ending, n) r' ∧
      r'.Skimmed origin e bytes ending ((r.dialect.readFrom k.stop c xs).line k) := by
  intro k
  rw [Reader.readFrom, Dialect.readFrom]
  cases ho : r.dialect.opens? c.char with
  | some d =>
    have hq := (hplain.learns h.learns).isPlain_of_opens ho
    have hopened : Skims { r with
        dialect := d, buffer := { r.buffer with enclosed := true }, phase := .enclosed } origin e
        bytes xs := h.congr rfl (.of_opens ho) rfl
    exact hopened.readEnclosed hplain hq
  | none =>
    have hnaked : Skims { r with phase := .naked } origin e bytes xs := h.congr rfl (.refl _) rfl
    exact hnaked.readNaked hplain c hc

/-- A reader that decodes comes to the end of a cell of the line that could be
read unit by unit. -/
theorem readCell (h : r.Skims origin e bytes xs) (hplain : origin.LinesPlainIn e)
    (hw : r.buffer.whitespace = CellBuffer.empty.whitespace) :
    ∃ ending r', r.readCell = .ok ending r' ∧
      r'.Skimmed origin e bytes ending (r.dialect.line (.units e bytes) xs) := by
  have hcleared : Skims { r with buffer := r.buffer.clear, phase := .seeking } origin e bytes xs :=
    h.congr rfl (.refl _) rfl
  rw [Reader.readCell, Dialect.line_eq, Handing.read, Dialect.readCell]
  rcases hcleared.readFirst hw e.isPlain_whitespace with ⟨hfirst, r', hread, hskims, hdialect⟩ |
    ⟨c, r', rest, x, block, hread, hskims, hfirst, hshows, hresumes⟩
  · rw [hread, hfirst, show r.dialect = r'.dialect from hdialect.symm]
    exact ⟨_, _, rfl, .ended (by simp) (hskims.congr rfl (.refl _) rfl) hskims.resumes_nil⟩
  · rw [hread, hfirst]
    obtain ⟨ending, n, r'', hread', hskimmed⟩ := hskims.readFrom hplain c hresumes
    dsimp only
    rw [hshows.line_readFrom (hplain.learns hskims.learns), hread']
    exact ⟨_, _, rfl, hskimmed.congr rfl rfl rfl⟩

end Skims

end Reader

end Tabular
