/-
What the line comes to that characters are in.

* `CellOutcome` — what a cell comes to, apart from what is kept of it;
* `Dialect.line` — what comes of the cells up to the end of a line;
* `Dialect.numbered_line`, `Dialect.after_line` — the cells of a line and of
  those after it;
* `Dialect.line_eq_lineOn` — without quotes, the line is the same wherever the
  cells in it end;
* `Encoding.Shows.line_readNaked`, `Encoding.Shows.line_readFrom` — a character
  that is not plain makes no difference to it, and neither do several;
* `Encoding.Recasts.line_eq` — nor does it if the first of the characters has
  been decoded.

Design notes: the units of a character may look like what separates cells, and
then there are more cells or fewer, but no more lines.  So lines are compared
where they end, and cells only where there are quotes.
-/
import Tabular.Proofs.Read.Trails
import Tabular.Proofs.Read.Trim

namespace Tabular

/-- What a cell comes to, apart from what is kept of it. -/
structure CellOutcome where
  ending : CellEnd
  dialect : Dialect
  rest : List Scanned

namespace CellRead

def outcome (p : CellRead) : CellOutcome := ⟨p.ending, p.dialect, p.rest⟩

@[simp] theorem outcome_keep (c : Scanned) (p : CellRead) : (p.keep c).outcome = p.outcome := rfl

end CellRead

/-- Handing over the units of a text in memory. -/
def Handing.units (e : Encoding) (bytes : List UInt8) : Handing := ⟨.raw, e, bytes, bytes.length⟩

/-- What the last cell of the line comes to that characters are in. -/
def Dialect.line (d : Dialect) (k : Handing) (cs : List Scanned) : CellOutcome :=
  let p := k.read d cs
  if _h : p.ending = .terminator .separator then p.dialect.line k p.rest else p.outcome
termination_by cs.length
decreasing_by exact length_rest_lt _h

/-- The same, of the line that a cell is in. -/
def CellRead.line (p : CellRead) (k : Handing) : CellOutcome :=
  if p.ending = .terminator .separator then p.dialect.line k p.rest else p.outcome

theorem CellRead.line_congr {p q : CellRead} (h : p.outcome = q.outcome) (k : Handing) :
    p.line k = q.line k := by
  obtain ⟨hending, hdialect, hrest⟩ := CellOutcome.mk.inj h
  rw [line, line, hending, hdialect, hrest, h]

@[simp] theorem CellRead.line_keep (c : Scanned) (p : CellRead) (k : Handing) :
    (p.keep c).line k = p.line k := line_congr rfl k

namespace Dialect

variable {d : Dialect} {k : Handing} {e : Encoding} {c x y : Scanned} {block cs ys : List Scanned}
  {row column : Nat}

theorem line_eq : d.line k cs = (k.read d cs).line k := by
  rw [line]
  rfl

theorem line_of_separator (hend : (k.read d cs).ending = .terminator .separator) :
    d.line k cs = (k.read d cs).dialect.line k (k.read d cs).rest := by
  rw [line_eq, CellRead.line, if_pos hend]

theorem line_of_over (hend : (k.read d cs).ending ≠ .terminator .separator) :
    d.line k cs = (k.read d cs).outcome := by
  rw [line_eq, CellRead.line, if_neg hend]

/-! ### The cells of a line -/

/-- The cells of a line, and those after it. -/
theorem numbered_line (d : Dialect) (row : Nat)
    (hcs : column = 0 → ∀ c ∈ cs.head?, c.span.start < k.stop)
    (hne : ¬ (cs = [] ∧ column = 0)) :
    let o := d.line k cs
    ∃ line, numbered row column (d.pulledFrom k cs) =
      placedLine row column ((k.read d cs).cell k cs :: line) ++
        numbered (row + 1) 0 (o.dialect.pulledFrom k o.rest) := by
  -- On the characters, of which a separator takes one.
  induction hn : cs.length using Nat.strongRecOn generalizing cs d column with
  | _ n ih =>
    subst hn
    by_cases hend : (k.read d cs).ending = .terminator .separator
    · have hcolumn : ¬ ((k.read d cs).rest = [] ∧ column + 1 = 0) :=
        fun hzero => Nat.succ_ne_zero _ hzero.2
      obtain ⟨line, hline⟩ := ih _ (length_rest_lt hend) _
        (fun hzero => absurd hzero (Nat.succ_ne_zero column)) hcolumn rfl
      rw [numbered_pulledFrom_separator hcs hne hend, line_of_separator hend]
      exact ⟨_ :: line, congrArg (_ :: ·) hline⟩
    · rw [numbered_pulledFrom_over hcs hne hend, line_of_over hend]
      exact ⟨[], rfl⟩

/-- What is known after the line and the others is known after all. -/
theorem after_line : (d.line k cs).dialect.after k (d.line k cs).rest = d.after k cs := by
  induction hn : cs.length using Nat.strongRecOn generalizing cs d with
  | _ n ih =>
    subst hn
    by_cases hend : (k.read d cs).ending = .terminator .separator
    · have hrest := ih _ (length_rest_lt hend) (d := (k.read d cs).dialect) rfl
      rw [line_of_separator hend]
      exact hrest.trans after_read
    · rw [line_of_over hend]
      exact after_read

/-- A line takes characters, unless the input ends. -/
theorem line_over (d : Dialect) (k : Handing) (cs : List Scanned) :
    (d.line k cs).ending = .inputEnd ∧ (d.line k cs).rest = [] ∨
      (d.line k cs).ending = .terminator .lineEnd ∧ (d.line k cs).rest.length < cs.length := by
  induction hn : cs.length using Nat.strongRecOn generalizing cs d with
  | _ n ih =>
    subst hn
    by_cases hend : (k.read d cs).ending = .terminator .separator
    · have hlt := length_rest_lt hend
      rw [line_of_separator hend]
      exact (ih _ hlt _ _ rfl).imp_right fun hover => ⟨hover.1, Nat.lt_trans hover.2 hlt⟩
    · rw [line_of_over hend]
      cases h : (k.read d cs).ending with
      | inputEnd => exact .inl ⟨h, rest_eq_nil h⟩
      | terminator t =>
        cases t with
        | separator => exact absurd h hend
        | lineEnd => exact .inr ⟨h, length_rest_lt h⟩

/-! ### Lines without quotes -/

/-- What the line comes to from the next character on, outside quotes. -/
def lineOn (d : Dialect) (k : Handing) (cs : List Scanned) : CellOutcome :=
  match uncons d.folds cs with
  | none => ⟨.inputEnd, d, []⟩
  | some (c, cs) => (d.readNaked k.stop c cs).line k

theorem lineOn_of_none (hc : uncons d.folds cs = none) : d.lineOn k cs = ⟨.inputEnd, d, []⟩ := by
  rw [lineOn, hc]

theorem lineOn_of_some (hc : uncons d.folds cs = some (c, ys)) :
    d.lineOn k cs = (d.readNaked k.stop c ys).line k := by
  rw [lineOn, hc]

/-- A character that ends no cell. -/
theorem line_readNaked_of_none (ht : d.terminator? c.char = none) :
    (d.readNaked k.stop c cs).line k = d.lineOn k cs := by
  rw [readNaked, ht, lineOn]
  dsimp only
  split
  · rename_i hc
    rw [hc]
    rfl
  · rename_i hc
    rw [hc]
    exact CellRead.line_keep ..

theorem line_readNaked_of_some {d' : Dialect} (ht : d.terminator? c.char = some (.separator, d')) :
    (d.readNaked k.stop c cs).line k = d'.line k cs := by
  rw [readNaked, ht]
  exact if_pos rfl

/-- Characters that are equal end cells alike. -/
theorem outcome_readNaked_congr (stop : Nat) (h : x.char = c.char) :
    (d.readNaked stop x cs).outcome = (d.readNaked stop c cs).outcome := by
  rw [readNaked, readNaked, h]
  cases d.terminator? c.char with
  | some t => rfl
  | none => cases uncons d.folds cs <;> rfl

/-- Whitespace is passed over as any other character is. -/
theorem line_seek (whitespace : List Char) :
    (match d.seek whitespace cs with
      | none => (⟨.inputEnd, d, []⟩ : CellOutcome)
      | some (c, ys, d') => (d'.readNaked k.stop c ys).line k) = d.lineOn k cs := by
  fun_induction seek d whitespace cs with
  | case1 cs hnone => rw [lineOn_of_none hnone]
  | case2 cs c cs' hsome hc t d' ht =>
    rw [lineOn_of_some hsome]
    dsimp only
    rw [readNaked, readNaked, ht, terminator?_again ht]
  | case3 cs c cs' hsome hc ht ih =>
    rw [lineOn_of_some hsome, line_readNaked_of_none ht]
    exact ih
  | case4 cs c cs' hsome hc => rw [lineOn_of_some hsome]

/-- Without quotes it makes no difference where a cell begins. -/
theorem line_eq_lineOn (hoff : d.enclosing = .off) : d.line k cs = d.lineOn k cs := by
  have hfrom : ∀ {d' : Dialect}, d.LearnsTo d' → ∀ c ys,
      d'.readFrom k.stop c ys = d'.readNaked k.stop c ys := by
    intro d' hl c ys
    rw [readFrom, opens?_off (hl.enclosing.off_iff.mpr hoff)]
  rw [line_eq, Handing.read, readCell]
  cases hfirst : d.readFirst CellBuffer.empty.whitespace cs with
  | none =>
    rw [readFirst] at hfirst
    split at hfirst
    · rw [← line_seek CellBuffer.empty.whitespace, hfirst]
      rfl
    · rw [lineOn_of_none (Option.map_eq_none_iff.mp hfirst)]
      rfl
  | some p =>
    obtain ⟨c, ys, d'⟩ := p
    dsimp only
    rw [hfrom (learnsTo_of_readFirst hfirst)]
    rw [readFirst] at hfirst
    split at hfirst
    · rw [← line_seek CellBuffer.empty.whitespace, hfirst]
    · obtain ⟨⟨c', cs'⟩, hsome, heq⟩ := Option.map_eq_some_iff.mp hfirst
      obtain ⟨rfl, rfl, rfl⟩ : c' = c ∧ cs' = ys ∧ d = d' := by simpa using heq
      rw [lineOn_of_some hsome]

/-! ### Characters that are not plain -/

/-- A character that is not plain may end a cell, but no line. -/
theorem line_readNaked_of_not_plain (hd : d.LinesPlainIn e) (hy : ¬ e.isPlain y.char) :
    (d.readNaked k.stop y ys).line k = d.lineOn k ys := by
  rcases hd.terminator?_of_not_plain hy with ht | ht
  · exact line_readNaked_of_none ht
  · by_cases hoff : d.enclosing = .off
    · rw [line_readNaked_of_some ht, line_eq_lineOn hoff]
    · rw [(hd.plainIn hoff).terminator?_eq_none hy] at ht
      exact absurd ht (by simp)

theorem lineOn_append (hd : d.LinesPlainIn e) (hblock : ∀ y ∈ block, ¬ e.isPlain y.char) :
    d.lineOn k (block ++ cs) = d.lineOn k cs := by
  induction block with
  | nil => rfl
  | cons y block ih =>
    rw [List.forall_mem_cons] at hblock
    rw [List.cons_append, lineOn_of_some (Encoding.uncons_of_not_plain hblock.1),
      line_readNaked_of_not_plain hd hblock.1, ih hblock.2]

/-- A line begins with such a character, if the characters do. -/
theorem readFirst_of_not_plain {whitespace : List Char} (hwhite : ∀ w ∈ whitespace, e.isPlain w)
    (hy : ¬ e.isPlain y.char) : d.readFirst whitespace (y :: ys) = some (y, ys, d) := by
  have huncons : uncons d.folds (y :: ys) = some (y, ys) := Encoding.uncons_of_not_plain hy
  have hmem : ¬ whitespace.contains y.char := fun hmem =>
    hy (hwhite _ (List.contains_iff_mem.mp hmem))
  rw [readFirst]
  split
  · rw [seek, huncons]
    exact if_neg hmem
  · rw [huncons, Option.map_some]

theorem line_of_not_plain (hd : d.LinesPlainIn e) (hy : ¬ e.isPlain y.char) :
    d.line k (y :: ys) = d.lineOn k ys := by
  rw [line_eq, Handing.read, readCell, readFirst_of_not_plain e.isPlain_whitespace hy]
  dsimp only
  rw [readFrom, hd.opens?_eq_none hy]
  exact line_readNaked_of_not_plain hd hy

end Dialect

namespace Encoding.Shows

variable {e : Encoding} {d : Dialect} {k : Handing} {c x : Scanned} {q : Char}
  {block cs : List Scanned}

/-- It is the same as any plain character, or not. -/
theorem char_eq_iff (h : e.Shows c.char (x :: block)) (hq : e.isPlain q) :
    x.char = q ↔ c.char = q := by
  cases h with
  | plain hc hx => rw [hx]
  | block hc hxs =>
    have hx : x.char ≠ q := fun hx => hxs x (List.mem_cons_self ..) (hx ▸ hq)
    have hc : c.char ≠ q := fun heq => hc (heq ▸ hq)
    exact iff_of_false hx hc

theorem opens?_eq (h : e.Shows c.char (x :: block)) (hd : d.LinesPlainIn e) :
    d.opens? x.char = d.opens? c.char := by
  cases h with
  | plain hc hx => rw [hx]
  | block hc hxs => rw [hd.opens?_eq_none hc, hd.opens?_eq_none (hxs x (List.mem_cons_self ..))]

/-- It ends a line outside quotes alike. -/
theorem line_readNaked (h : e.Shows c.char (x :: block)) (hd : d.LinesPlainIn e) :
    (d.readNaked k.stop x (block ++ cs)).line k = (d.readNaked k.stop c cs).line k := by
  cases h with
  | plain hc hx => exact CellRead.line_congr (Dialect.outcome_readNaked_congr _ hx) k
  | block hc hxs =>
    rw [List.forall_mem_cons] at hxs
    rw [Dialect.line_readNaked_of_not_plain hd hxs.1, Dialect.lineOn_append hd hxs.2,
      Dialect.line_readNaked_of_not_plain hd hc]

/-- What comes after it between quotes ends the cell alike. -/
theorem outcome_readEnclosed (h : e.Shows c.char (x :: block)) (hq : e.isPlain q) (stop : Nat) :
    (d.readEnclosed stop q (block ++ cs)).outcome = (d.readEnclosed stop q cs).outcome := by
  have hblock : ∀ y ∈ block, ¬ e.isPlain y.char := by
    cases h with
    | plain hc hx => simp
    | block hc hxs => exact (List.forall_mem_cons.mp hxs).2
  clear h
  induction block with
  | nil => rfl
  | cons y block ih =>
    rw [List.forall_mem_cons] at hblock
    have hy : y.char ≠ q := fun hy => hblock.1 (hy ▸ hq)
    rw [List.cons_append, Dialect.readEnclosed, Encoding.uncons_of_not_plain hblock.1]
    dsimp only
    rw [if_pos hy, CellRead.outcome_keep, ih hblock.2]

/-- It begins a cell alike. -/
theorem line_readFrom (h : e.Shows c.char (x :: block)) (hd : d.LinesPlainIn e) :
    (d.readFrom k.stop x (block ++ cs)).line k = (d.readFrom k.stop c cs).line k := by
  rw [Dialect.readFrom, Dialect.readFrom, h.opens?_eq hd]
  cases ho : d.opens? c.char with
  | none => exact h.line_readNaked hd
  | some d' =>
    obtain ⟨y, hy, hchar⟩ := h.eq_singleton (hd.isPlain_of_opens ho)
    obtain ⟨rfl, rfl⟩ := List.cons.inj hy
    rw [hchar]
    rfl

end Encoding.Shows

/-! ### Characters that have been decoded -/

theorem Dialect.lineOn_shifted {d : Dialect} {k : Handing} {cs ys : List Scanned}
    (h : Shifted cs ys) : d.lineOn k ys = d.lineOn k cs := by
  have hcongr {x y : Scanned} (hchar : y.char = x.char) (cs : List Scanned) :
      (d.readNaked k.stop y cs).line k = (d.readNaked k.stop x cs).line k :=
    CellRead.line_congr (outcome_readNaked_congr _ hchar) k
  cases h with
  | nil => rfl
  | @cons x y cs hchar =>
    cases cs with
    | nil => exact hcongr hchar []
    | cons z cs =>
      rw [lineOn, lineOn, uncons, uncons, hchar]
      split_ifs
      · exact hcongr (x := ⟨'\n', x.span.start, z.span.stop⟩)
          (y := ⟨'\n', y.span.start, z.span.stop⟩) rfl cs
      · exact hcongr hchar (z :: cs)

/-- The line comes to the same. -/
theorem Encoding.Recasts.line_eq {e : Encoding} {stop : Nat} {d : Dialect} {k : Handing}
    {cs ys : List Scanned} (h : e.Recasts stop cs ys) (hd : d.LinesPlainIn e) :
    d.line k ys = d.line k cs := by
  cases h with
  | mk hc hxs hx h =>
    rw [List.forall_mem_cons] at hxs
    rw [List.cons_append, Dialect.line_of_not_plain hd hc, Dialect.line_of_not_plain hd hxs.1,
      Dialect.lineOn_append hd hxs.2, Dialect.lineOn_shifted h]

end Tabular
