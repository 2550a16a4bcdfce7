/-
What a reader makes of the logical characters of a cell.

* `Dialect.Settled` — nothing is left to be detected;
* `Dialect.cellOf` — how a list of characters begins with a cell: what of it is
  kept, and what comes after it;
* `Reader.Reads` — the logical characters still to come;
* `Reader.Reads.readCell` — a reader reads that cell, and no more.

Design notes: the grammar is a few functions on lists, one for each kind of
run (`trim`, `unquote`, `takeWhile`).  The loops of the reader keep characters
as they go, which `CellBuffer.appendAll` says of a whole run.
-/
import Tabular.Read.Reader
import Tabular.Proofs.Read.Chars

namespace Tabular

/-! ### The grammar of a cell -/

namespace Dialect

/-- Every part is played by a known character, or by nobody. -/
structure Settled (d : Dialect) : Prop where
  separator : d.separator ≠ .auto
  enclosing : d.enclosing ≠ .auto
  lineEnd : d.lineEnd ≠ .auto

/-- What a character ends.  If it may be either, it is a separator. -/
def ends? (d : Dialect) (c : Char) : Option Terminator :=
  if d.separator = .char c then some .separator
  else if d.lineEnd = .char c then some .lineEnd
  else none

/-- Whether a character is part of a cell outside quotes. -/
def isContent (d : Dialect) (c : Scanned) : Bool := (d.ends? c.char).isNone

/-- What ends a cell that these characters come after. -/
def endOf (d : Dialect) : List Scanned → CellEnd
  | [] => .inputEnd
  | c :: _ => (d.ends? c.char).elim .inputEnd .terminator

/-- What a reader begins a cell with. -/
def trim (d : Dialect) (whitespace : List Char) (chars : List Scanned) : List Scanned :=
  if d.trims then chars.dropWhile fun c => whitespace.contains c.char && d.isContent c else chars

end Dialect

/-- What stands between quotes, when the opening quote has been read, and what
comes after the closing quote, if there is one.  Of a doubled quote the first
is kept. -/
def unquote (q : Char) : List Scanned → List Scanned × Option (List Scanned)
  | [] => ([], none)
  | [c] => if c.char = q then ([], some []) else ([c], none)
  | c :: d :: cs =>
    if c.char ≠ q then (c :: (unquote q (d :: cs)).1, (unquote q (d :: cs)).2)
    else if d.char = q then (c :: (unquote q cs).1, (unquote q cs).2)
    else ([], some (d :: cs))

/-- A cell at the head of a list of characters. -/
structure CellParts where
  /-- The characters that its text is made of. -/
  kept : List Scanned
  enclosed : Bool
  /-- What comes after it, beginning with its terminator. -/
  after : List Scanned

namespace Dialect

/-- The rest of a cell outside quotes, of which `kept` has been kept. -/
def nakedOf (d : Dialect) (kept : List Scanned) (enclosed : Bool) (chars : List Scanned) :
    CellParts :=
  ⟨kept ++ chars.takeWhile d.isContent, enclosed, chars.dropWhile d.isContent⟩

/-- The cell that begins with `c`. -/
def partsFrom (d : Dialect) (c : Scanned) (cs : List Scanned) : CellParts :=
  if d.enclosing = .char c.char then
    d.nakedOf (unquote c.char cs).1 true ((unquote c.char cs).2.getD [])
  else d.nakedOf [] false (c :: cs)

/-- The cell that characters begin with. -/
def cellOf (d : Dialect) (whitespace : List Char) (chars : List Scanned) : CellParts :=
  match d.trim whitespace chars with
  | [] => ⟨[], false, []⟩
  | c :: cs => d.partsFrom c cs

namespace Settled

variable {d : Dialect} (h : d.Settled)

include h

/-- A settled dialect has nothing to learn. -/
theorem terminator?_eq (c : Char) : d.terminator? c = (d.ends? c).map (·, d) := by
  obtain ⟨sep, enc, le, trims, keeps⟩ := d
  obtain ⟨hs, -, hl⟩ := h
  have accepts : ∀ {p : Delimiter} (l : List Char), p ≠ .auto →
      (p.accepts l c = true ↔ p = .char c) := by
    intro p l hp
    cases p with
    | char x => simp [Delimiter.accepts]
    | off => simp [Delimiter.accepts]
    | auto => exact absurd rfl hp
  rw [terminator?, ends?]
  by_cases h1 : sep = .char c
  · rw [if_pos ((accepts _ hs).mpr h1), if_pos h1, h1]
    rfl
  · rw [if_neg (mt (accepts _ hs).mp h1), if_neg h1]
    by_cases h2 : le = .char c
    · rw [if_pos ((accepts _ hl).mpr h2), if_pos h2, h2]
      rfl
    · rw [if_neg (mt (accepts _ hl).mp h2), if_neg h2]
      rfl

theorem opens?_eq (c : Char) : d.opens? c = if d.enclosing = .char c then some d else none := by
  obtain ⟨sep, enc, le, trims, keeps⟩ := d
  obtain ⟨-, he, -⟩ := h
  rw [opens?]
  cases enc with
  | char x =>
    by_cases hx : x = c
    · simp [Delimiter.accepts, hx]
    · simp [Delimiter.accepts, hx]
  | off => simp [Delimiter.accepts]
  | auto => exact absurd rfl he

end Settled

end Dialect

/-! ### Runs of characters -/

/-- Adds the characters of a run. -/
def CellBuffer.appendAll (b : CellBuffer) (s : Strategy) (cs : List Scanned) : CellBuffer :=
  cs.foldl (fun b c => b.append s c) b

/-- Whether a strategy keeps the characters themselves. -/
def Strategy.keepsChars : Strategy → Bool
  | raw | decode => true
  | view | discard => false

namespace CellBuffer

/-- A character can be taken back: it is kept as it is, or not at all. -/
def CanRetract (b : CellBuffer) (s : Strategy) : Prop :=
  s.keepsChars ∨ s = .discard ∧ b.chars = []

variable {s : Strategy}

theorem appendAll_append (b : CellBuffer) (cs ds : List Scanned) :
    b.appendAll s (cs ++ ds) = (b.appendAll s cs).appendAll s ds :=
  List.foldl_append

theorem append_keeps (hs : s.keepsChars) (b : CellBuffer) (c : Scanned) :
    b.append s c = { b with chars := c.char :: b.chars } := by
  cases s with
  | raw | decode => rfl
  | view | discard => exact absurd hs (by decide)

theorem appendAll_keeps (hs : s.keepsChars) (b : CellBuffer) (cs : List Scanned) :
    b.appendAll s cs = { b with chars := (cs.map Scanned.char).reverse ++ b.chars } := by
  induction cs generalizing b with
  | nil => rfl
  | cons c cs ih =>
    rw [appendAll, List.foldl_cons, ← appendAll, ih, append_keeps hs]
    simp

/-- The text of a cell of which the characters are kept. -/
theorem text_toCell (hs : s.keepsChars) {b : CellBuffer} (hchars : b.chars = [])
    (hview : b.view = none) (cs : List Scanned) (enclosed : Bool) (rawBytes : Nat)
    (viewed : List UInt8) (e : Encoding) :
    (toCell { b.appendAll s cs with enclosed, rawBytes } viewed e).text =
      String.ofList (cs.map Scanned.char) := by
  rw [appendAll_keeps hs, toCell]
  dsimp only
  rw [hview, hchars, List.append_nil, List.reverse_reverse]

/-- A character that is taken back leaves no trace. -/
theorem retract_append {b : CellBuffer} (h : b.CanRetract s) (c : Scanned) :
    (b.append s c).retract = b := by
  rcases h with hs | ⟨rfl, hb⟩
  · rw [append_keeps hs]
    rfl
  · show { b with chars := b.chars.tail } = b
    rw [hb, List.tail_nil, ← hb]

theorem CanRetract.append {b : CellBuffer} (h : b.CanRetract s) (c : Scanned) :
    (b.append s c).CanRetract s := by
  rcases h with hs | ⟨rfl, hb⟩
  · exact .inl hs
  · exact .inr ⟨rfl, hb⟩

theorem append_mark (b : CellBuffer) (x : Bool) (c : Scanned) :
    { b with enclosed := x }.append s c = { b.append s c with enclosed := x } := by
  cases s with
  | raw | decode | discard => rfl
  | view => cases hv : b.view <;> simp [append, hv]

/-- It does not matter when a cell is marked as enclosed. -/
theorem appendAll_mark (b : CellBuffer) (x : Bool) (cs : List Scanned) :
    { b with enclosed := x }.appendAll s cs = { b.appendAll s cs with enclosed := x } := by
  induction cs generalizing b with
  | nil => rfl
  | cons c cs ih => rw [appendAll, List.foldl_cons, append_mark, ← appendAll, ih]; rfl

theorem enclosed_appendAll (b : CellBuffer) (cs : List Scanned) :
    (b.appendAll s cs).enclosed = b.enclosed := by
  rw [show b = { b with enclosed := b.enclosed } from rfl, appendAll_mark]

theorem whitespace_append (b : CellBuffer) (c : Scanned) :
    (b.append s c).whitespace = b.whitespace := by
  cases s with
  | raw | decode | discard => rfl
  | view => cases hv : b.view <;> simp [append, hv]

theorem whitespace_appendAll (b : CellBuffer) (cs : List Scanned) :
    (b.appendAll s cs).whitespace = b.whitespace := by
  induction cs generalizing b with
  | nil => rfl
  | cons c cs ih => rw [appendAll, List.foldl_cons, ← appendAll, ih, whitespace_append]

end CellBuffer

/-! ### The reader -/

namespace Reader

/-- The logical characters still to come from memory, and that nothing is left
to be detected. -/
structure Reads (r : Reader) (e : Encoding) (stop : Nat) (chars : List Scanned) : Prop where
  settled : r.dialect.Settled
  encoding : r.encoding = e
  reads : r.chars.Reads r.strategy r.dialect.folds stop chars

namespace Reads

variable {r : Reader} {e : Encoding} {stop : Nat} {chars : List Scanned} {c : Scanned}

/-- What else there is to a reader does not matter. -/
theorem congr {r' : Reader} (h : r.Reads e stop chars) (hc : r'.chars = r.chars)
    (hd : r'.dialect = r.dialect) (hs : r'.strategy = r.strategy) : r'.Reads e stop chars := by
  obtain ⟨hset, he, hreads⟩ := h
  refine ⟨hd ▸ hset, ?_, ?_⟩
  · rw [← he, Reader.encoding, Reader.encoding, hc]
  · rw [hc, hd, hs]
    exact hreads

/-- Which of the strategies decodes makes no difference to what comes. -/
theorem of_decoding {s : Strategy} (h : r.Reads e stop chars) (hr : r.strategy ≠ .raw)
    (hs : s ≠ .raw) : Reads { r with strategy := s } e stop chars :=
  ⟨h.settled, h.encoding, h.reads.of_decoding hr hs⟩

theorem position (h : r.Reads e stop chars) : r.position = offsetOf stop chars :=
  h.reads.position

theorem next_nil (h : r.Reads e stop []) : r.next = .ok none r := by
  rw [Reader.next, h.reads.next_nil]

theorem next (h : r.Reads e stop (c :: chars)) :
    ∃ cs, r.next = .ok (some c) { r with chars := cs } ∧
      Reads { r with chars := cs } e stop chars := by
  obtain ⟨cs, hnext, hcs, he⟩ := h.reads.next
  exact ⟨cs, by rw [Reader.next, hnext], h.settled, he.trans h.encoding, hcs⟩

/-- What has been kept does not change what is to come. -/
theorem append (h : r.Reads e stop chars) (c : Scanned) : (r.append c).Reads e stop chars :=
  h.congr rfl rfl rfl

/-- A run of characters that end no cell, up to what ends it. -/
theorem readNaked (h : r.Reads e stop chars) (c : Scanned) :
    let after := (c :: chars).dropWhile r.dialect.isContent
    ∃ cs, r.readNaked c = .ok (r.dialect.endOf after, offsetOf stop after)
        { r with
          chars := cs
          buffer := r.buffer.appendAll r.strategy ((c :: chars).takeWhile r.dialect.isContent) } ∧
      Reads { r with chars := cs } e stop after.tail := by
  -- On the characters to come, with `c` already read.
  induction chars generalizing r c with
  | nil =>
    rw [Reader.readNaked, h.settled.terminator?_eq]
    cases he : r.dialect.ends? c.char with
    | some t =>
      have hc : r.dialect.isContent c = false := by rw [Dialect.isContent, he]; rfl
      refine ⟨r.chars, ?_, ?_⟩
      · simp [hc, he, Dialect.endOf, offsetOf, CellBuffer.appendAll]
      · simpa [hc] using h
    | none =>
      have hc : r.dialect.isContent c = true := by rw [Dialect.isContent, he]; rfl
      have h' := h.append c
      refine ⟨r.chars, ?_, ?_⟩
      · simp only [Option.map_none]
        rw [h'.next_nil]
        have hp : (r.append c).position = stop := h'.position
        simp [hc, Dialect.endOf, offsetOf, CellBuffer.appendAll, Reader.append]
        exact hp
      · simpa [hc] using h
  | cons d chars ih =>
    rw [Reader.readNaked, h.settled.terminator?_eq]
    cases he : r.dialect.ends? c.char with
    | some t =>
      have hc : r.dialect.isContent c = false := by rw [Dialect.isContent, he]; rfl
      refine ⟨r.chars, ?_, ?_⟩
      · simp [hc, he, Dialect.endOf, offsetOf, CellBuffer.appendAll]
      · simpa [hc] using h
    | none =>
      have hc : r.dialect.isContent c = true := by rw [Dialect.isContent, he]; rfl
      have h' := h.append c
      obtain ⟨cs, hnext, hcs⟩ := h'.next
      obtain ⟨cs', hread, hcs'⟩ := ih hcs d
      refine ⟨cs', ?_, ?_⟩
      · simp only [Option.map_none]
        rw [hnext]
        dsimp only
        rw [hread]
        simp only [List.takeWhile_cons, List.dropWhile_cons, hc, if_true]
        rfl
      · rw [List.dropWhile_cons, if_pos hc]
        exact hcs'.congr rfl rfl rfl

/-- What stands between quotes, up to what ends the cell. -/
theorem readEnclosed (h : r.Reads e stop chars) (hb : r.buffer.CanRetract r.strategy) (q : Char) :
    let rest := (unquote q chars).2.getD []
    let after := rest.dropWhile r.dialect.isContent
    ∃ cs phase, r.readEnclosed q = .ok (r.dialect.endOf after, offsetOf stop after)
        { r with
          chars := cs
          phase
          buffer := (r.buffer.appendAll r.strategy (unquote q chars).1).appendAll r.strategy
            (rest.takeWhile r.dialect.isContent) } ∧
      Reads { r with chars := cs } e stop after.tail := by
  -- Along `unquote`, which takes one turn for each that the reader takes.
  fun_induction unquote q chars generalizing r with
  | case1 =>
    refine ⟨r.chars, r.phase, ?_, h⟩
    rw [Reader.readEnclosed, h.next_nil]
    dsimp only
    rw [h.position]
    rfl
  | case2 c hq =>
    obtain ⟨cs, hnext, hcs⟩ := h.next
    have h' := hcs.append c
    refine ⟨cs, r.phase, ?_, hcs⟩
    rw [Reader.readEnclosed, hnext]
    dsimp only
    rw [if_neg (not_not_intro hq), h'.next_nil]
    dsimp only
    rw [h'.position]
    simp only [Reader.append, CellBuffer.retract_append hb]
    rfl
  | case3 c hq =>
    obtain ⟨cs, hnext, hcs⟩ := h.next
    have h' := hcs.append c
    refine ⟨cs, r.phase, ?_, hcs⟩
    rw [Reader.readEnclosed, hnext]
    dsimp only
    rw [if_pos hq, Reader.readEnclosed, h'.next_nil]
    dsimp only
    rw [h'.position]
    rfl
  | case4 c d ds hq ih =>
    obtain ⟨cs, hnext, hcs⟩ := h.next
    have h' := hcs.append c
    obtain ⟨cs', phase, hread, hcs'⟩ := ih h' (hb.append c)
    refine ⟨cs', phase, ?_, hcs'.congr rfl rfl rfl⟩
    rw [Reader.readEnclosed, hnext]
    dsimp only
    rw [if_pos hq, hread]
    rfl
  | case5 c d ds hq hd ih =>
    obtain ⟨cs, hnext, hcs⟩ := h.next
    have h' := hcs.append c
    obtain ⟨cs', hnext', hcs'⟩ := h'.next
    obtain ⟨cs'', phase, hread, hcs''⟩ := ih hcs' (hb.append c)
    refine ⟨cs'', phase, ?_, hcs''.congr rfl rfl rfl⟩
    rw [Reader.readEnclosed, hnext]
    dsimp only
    rw [if_neg hq, hnext']
    dsimp only
    rw [if_pos hd, hread]
    rfl
  | case6 c d ds hq hd =>
    obtain ⟨cs, hnext, hcs⟩ := h.next
    have h' := hcs.append c
    obtain ⟨cs', hnext', hcs'⟩ := h'.next
    -- The quote was not doubled, so it is taken back, and the cell goes on without quotes.
    have h'' : Reads { Reader.append { r with chars := cs } c with
        chars := cs', buffer := (r.buffer.append r.strategy c).retract, phase := .afterEnclosed }
        e stop ds := hcs'.congr rfl rfl rfl
    obtain ⟨cs'', hread, hcs''⟩ := h''.readNaked d
    refine ⟨cs'', .afterEnclosed, ?_, hcs''.congr rfl rfl rfl⟩
    rw [Reader.readEnclosed, hnext]
    dsimp only
    rw [if_neg hq, hnext']
    dsimp only
    rw [if_neg hd]
    refine hread.trans ?_
    simp only [Reader.append, CellBuffer.retract_append hb]
    rfl

/-- Whitespace that ends no cell is passed over. -/
theorem skipWhitespace (h : r.Reads e stop chars) :
    let rest := chars.dropWhile fun c =>
      r.buffer.whitespace.contains c.char && r.dialect.isContent c
    ∃ cs, r.skipWhitespace = .ok rest.head? { r with chars := cs } ∧
      Reads { r with chars := cs } e stop rest.tail := by
  induction chars generalizing r with
  | nil =>
    refine ⟨r.chars, ?_, h⟩
    rw [Reader.skipWhitespace, h.next_nil]
    rfl
  | cons c chars ih =>
    obtain ⟨cs, hnext, hcs⟩ := h.next
    rw [Reader.skipWhitespace, hnext]
    dsimp only
    rw [h.settled.terminator?_eq, List.dropWhile_cons, CellBuffer.isWhitespace]
    -- Whitespace may also end a cell, as a separator does.
    by_cases hw : r.buffer.whitespace.contains c.char
    · rw [if_pos hw, hw, Bool.true_and, Dialect.isContent]
      cases he : r.dialect.ends? c.char with
      | some t => exact ⟨cs, rfl, hcs⟩
      | none =>
        obtain ⟨cs', hskip, hcs'⟩ := ih hcs
        exact ⟨cs', hskip, hcs'⟩
    · rw [if_neg hw, Bool.not_eq_true _ |>.mp hw, Bool.false_and, if_neg Bool.false_ne_true]
      exact ⟨cs, rfl, hcs⟩

theorem readFirst (h : r.Reads e stop chars) :
    let rest := r.dialect.trim r.buffer.whitespace chars
    ∃ cs, r.readFirst = .ok rest.head? { r with chars := cs } ∧
      Reads { r with chars := cs } e stop rest.tail := by
  rw [Reader.readFirst, Dialect.trim]
  by_cases ht : r.dialect.trims
  · rw [if_pos ht, if_pos ht]
    exact h.skipWhitespace
  · rw [if_neg ht, if_neg ht]
    cases chars with
    | nil => exact ⟨r.chars, h.next_nil, h⟩
    | cons c chars => exact h.next

/-- The rest of a cell that begins with `c`. -/
theorem readFrom (h : r.Reads e stop chars) (hb : r.buffer.CanRetract r.strategy ∨
      r.dialect.enclosing = .off) (c : Scanned) :
    let p := r.dialect.partsFrom c chars
    ∃ cs phase, r.readFrom c = .ok (r.dialect.endOf p.after, offsetOf stop p.after)
        { r with
          chars := cs
          phase
          buffer := { r.buffer.appendAll r.strategy p.kept with
            enclosed := p.enclosed || r.buffer.enclosed } } ∧
      Reads { r with chars := cs } e stop p.after.tail := by
  rw [Reader.readFrom, h.settled.opens?_eq, Dialect.partsFrom]
  by_cases hc : r.dialect.enclosing = .char c.char
  · rw [if_pos hc, if_pos hc]
    have hb := hb.resolve_right (by simp [hc])
    have h' : Reads { r with
        buffer := { r.buffer with enclosed := true }, phase := .enclosed } e stop chars :=
      h.congr rfl rfl rfl
    obtain ⟨cs, phase, hread, hcs⟩ := h'.readEnclosed hb c.char
    refine ⟨cs, phase, hread.trans ?_, hcs.congr rfl rfl rfl⟩
    simp only [Dialect.nakedOf, CellBuffer.appendAll_append, CellBuffer.appendAll_mark,
      Bool.true_or]
  · rw [if_neg hc, if_neg hc]
    have h' : Reads { r with phase := .naked } e stop chars :=
      h.congr rfl rfl rfl
    obtain ⟨cs, hread, hcs⟩ := h'.readNaked c
    refine ⟨cs, .naked, hread.trans ?_, hcs.congr rfl rfl rfl⟩
    simp only [Dialect.nakedOf, List.nil_append, Bool.false_or]
    rw [← CellBuffer.enclosed_appendAll r.buffer ((c :: chars).takeWhile r.dialect.isContent)]

/-- A reader reads the cell that comes next, and its terminator. -/
theorem readCell (h : r.Reads e stop chars) (hs : r.strategy ≠ .view ∨ r.dialect.enclosing = .off) :
    let p := r.dialect.cellOf r.buffer.whitespace chars
    ∃ cs, r.readCell = .ok (r.dialect.endOf p.after)
        { r with
          chars := cs
          buffer := { r.buffer.clear.appendAll r.strategy p.kept with
            enclosed := p.enclosed
            rawBytes := offsetOf stop p.after - offsetOf stop chars }
          phase := (r.dialect.endOf p.after).phase } ∧
      Reads { r with chars := cs } e stop p.after.tail := by
  have h' : Reads { r with buffer := r.buffer.clear, phase := .seeking } e stop chars :=
    h.congr rfl rfl rfl
  obtain ⟨cs, hfirst, hcs⟩ := h'.readFirst
  rw [Reader.readCell, hfirst, h.position]
  dsimp only
  rw [Dialect.cellOf]
  rw [show ({ r with buffer := r.buffer.clear, phase := .seeking } : Reader).buffer.whitespace =
    r.buffer.whitespace from rfl] at hcs ⊢
  generalize r.dialect.trim r.buffer.whitespace chars = rest at hcs ⊢
  cases rest with
  | nil =>
    refine ⟨cs, ?_, hcs.congr rfl rfl rfl⟩
    simp only [List.head?_nil]
    rw [hcs.position]
    rfl
  | cons c rest =>
    -- Views cannot take a quote back, and are not kept where there are quotes.
    have hb : r.buffer.clear.CanRetract r.strategy ∨ r.dialect.enclosing = .off := by
      refine hs.imp_left fun hs => ?_
      cases hr : r.strategy with
      | raw | decode => exact .inl rfl
      | discard => exact .inr ⟨rfl, rfl⟩
      | view => exact absurd hr hs
    obtain ⟨cs', phase, hread, hcs'⟩ := hcs.readFrom hb c
    refine ⟨cs', ?_, hcs'.congr rfl rfl rfl⟩
    simp only [List.head?_cons]
    rw [hread]
    simp [CellBuffer.clear]

end Reads

end Reader

end Tabular
