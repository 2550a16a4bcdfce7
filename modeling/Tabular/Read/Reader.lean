/-
Reading delimited text character by character.

* `Reader.readCell` — reads one cell and says what ended it;
* `Reader.readRow` — reads the cells of a line and hands them over, as the
  verdicts on them allow;
* `Reader.read` — reads row after row to the end.

A cell is naked, or it begins with a quote.  Between quotes nothing ends a
cell but the closing quote; a doubled quote stands for one.  What follows the
closing quote, up to the next separator or line end, belongs to the cell.

Design notes: every operation is an `Attempt`, because a reader can be used
again after its source has failed.  Each loop reads at least one character a
round, so `Reader.left` bounds it.
-/
import Tabular.Read.Chars
import Tabular.Read.Options
import Tabular.Text.ByteOrderMark

namespace Tabular

/-- A reader somewhere in its input. -/
structure Reader where
  chars : Chars
  /-- The dialect as far as it is known by now. -/
  dialect : Dialect
  strategy : Strategy
  buffer : CellBuffer
  /-- The bytes that views refer to. -/
  viewed : List UInt8
  phase : Phase
  /-- The bytes accounted for at the end of each row. -/
  progress : Nat
  /-- How far the account goes. -/
  accounted : Nat
  /-- The cells handed over, the latest first. -/
  handed : List Handed

/-- What ended a cell. -/
inductive CellEnd
  | terminator (t : Terminator)
  | inputEnd
  deriving DecidableEq

def CellEnd.phase : CellEnd → Phase
  | terminator .separator => .separator
  | terminator .lineEnd => .lineEnd
  | inputEnd => .inputEnd

namespace Reader

/-- Starts to read a source, of which `viewed` are the bytes if it is in
memory.  The first four bytes are enough to tell a byte order mark. -/
def start (source : Source) (viewed : Option (List UInt8)) (f : Format) (o : ReadOptions) :
    Except Error Reader :=
  match source.peek 4 with
  | .error e _ => .error e
  | .ok head source =>
    let (encoding, markSize) := f.encoding.resolve head
    match source.skip markSize with
    | .error e _ => .error e
    | .ok () source => do
      let strategy := o.strategy.getD .decode
      strategy.check f encoding viewed.isSome
      return {
        chars := ⟨.ofSource source encoding, none⟩
        dialect := f.toDialect
        strategy
        buffer := .empty
        viewed := viewed.getD []
        phase := .seeking
        progress := 0
        accounted := 0
        handed := [] }

/-- Starts to read a text in memory. -/
def ofBytes (bytes : List UInt8) (f : Format) (o : ReadOptions) : Except Error Reader :=
  start (.ofBytes bytes) (some bytes) f o

/-- Starts to read a stream. -/
def ofFeed (feed : Feed) (f : Format) (o : ReadOptions) : Except Error Reader :=
  start (.ofFeed feed o.bufferSize) none f o

/-- The encoding that the input is read in. -/
def encoding (r : Reader) : Encoding := r.chars.units.encoding

/-- The byte offset of the next character. -/
def position (r : Reader) : Nat := r.chars.position

/-- The cell in the buffer. -/
def cell (r : Reader) : Cell := r.buffer.toCell r.viewed r.encoding

/-- A bound on the characters still to come. -/
def left (r : Reader) : Nat := r.chars.left

/-- The next character. -/
def next (r : Reader) : Attempt Reader (Option Scanned) :=
  match r.chars.next r.strategy r.dialect.folds with
  | .error e chars => .error e { r with chars }
  | .ok c chars => .ok c { r with chars }

/-- The reader with a character added to its cell. -/
def append (r : Reader) (c : Scanned) : Reader :=
  { r with buffer := r.buffer.append r.strategy c }

theorem next_some {r r' : Reader} {c : Scanned} (h : r.next = .ok (some c) r') :
    r'.left < r.left := by
  unfold next at h
  split at h
  · simp at h
  · rename_i hn
    simp only [EStateM.Result.ok.injEq] at h
    obtain ⟨rfl, rfl⟩ := h
    exact Chars.next_some hn

theorem next_none {r r' : Reader} (h : r.next = .ok none r') : r'.left ≤ r.left := by
  unfold next at h
  split at h
  · simp at h
  · rename_i hn
    simp only [EStateM.Result.ok.injEq] at h
    obtain ⟨rfl, rfl⟩ := h
    exact Chars.next_none hn

/-! ### One cell -/

/-- Passes over whitespace that ends no cell, and gives the character after
it. -/
def skipWhitespace (r : Reader) : Attempt Reader (Option Scanned) :=
  match _h : r.next with
  | .error e r => .error e r
  | .ok none r => .ok none r
  | .ok (some c) r =>
    if r.buffer.isWhitespace c.char then
      match r.dialect.terminator? c.char with
      -- A tab that separates, say: it ends an empty cell.
      | some (_, dialect) => .ok (some c) { r with dialect }
      | none => skipWhitespace r
    else .ok (some c) r
termination_by r.left
decreasing_by exact next_some _h

/-- Reads from `c` to the end of a cell outside quotes.  Gives what ended it,
and the offset at which its last character ends. -/
def readNaked (c : Scanned) (r : Reader) : Attempt Reader (CellEnd × Nat) :=
  match r.dialect.terminator? c.char with
  | some (t, dialect) => .ok (.terminator t, c.span.start) { r with dialect }
  | none =>
    match _h : (r.append c).next with
    | .error e r' => .error e r'
    | .ok none r' => .ok (.inputEnd, r'.position) r'
    | .ok (some d) r' => readNaked d r'
termination_by r.left
decreasing_by exact (next_some _h :)

/-- Reads from after the opening quote `q` to the end of a cell.  Each quote
is kept until the character after it says whether it closes the cell. -/
def readEnclosed (q : Char) (r : Reader) : Attempt Reader (CellEnd × Nat) :=
  match _h : r.next with
  | .error e r => .error e r
  | .ok none r => .ok (.inputEnd, r.position) r
  | .ok (some c) r' =>
    if c.char ≠ q then readEnclosed q (r'.append c)
    else
      match _h' : (r'.append c).next with
      | .error e r => .error e r
      | .ok none r => .ok (.inputEnd, r.position) { r with buffer := r.buffer.retract }
      | .ok (some d) r'' =>
        -- Of a doubled quote the one kept stands for both; a quote that closed
        -- the cell is taken back.
        if d.char = q then readEnclosed q r''
        else readNaked d { r'' with buffer := r''.buffer.retract, phase := .afterEnclosed }
termination_by r.left
decreasing_by
  · exact (next_some _h :)
  · exact Nat.lt_trans (next_some _h' :) (next_some _h :)

/-- Reads the cell that begins with `c`. -/
def readFrom (c : Scanned) (r : Reader) : Attempt Reader (CellEnd × Nat) :=
  match r.dialect.opens? c.char with
  | some dialect =>
    readEnclosed c.char
      { r with dialect, buffer := { r.buffer with enclosed := true }, phase := .enclosed }
  | none => readNaked c { r with phase := .naked }

/-- The first character of a cell. -/
def readFirst (r : Reader) : Attempt Reader (Option Scanned) :=
  if r.dialect.trims then r.skipWhitespace else r.next

/-- Reads one cell and says what ended it.  The terminator is read as well,
but belongs to no cell. -/
def readCell (r : Reader) : Attempt Reader CellEnd :=
  match readFirst { r with buffer := r.buffer.clear, phase := .seeking } with
  | .error e r' => .error e r'
  | .ok none r' =>
    .ok .inputEnd
      { r' with
        buffer := { r'.buffer with rawBytes := r'.position - r.position }
        phase := .inputEnd }
  | .ok (some c) r' =>
    match readFrom c r' with
    | .error e r' => .error e r'
    | .ok (ending, stop) r' =>
      .ok ending
        { r' with
          buffer := { r'.buffer with rawBytes := stop - r.position }
          phase := ending.phase }

/-! ### Every cell but the last takes a character -/

theorem skipWhitespace_ok {r r' : Reader} {c : Option Scanned}
    (h : r.skipWhitespace = .ok c r') :
    r'.left ≤ r.left ∧ (c.isSome → r'.left < r.left) := by
  fun_induction skipWhitespace r with
  | case1 => simp at h
  | case2 r t ht =>
    simp only [EStateM.Result.ok.injEq] at h
    obtain ⟨rfl, rfl⟩ := h
    simpa using next_none ht
  | case3 r d t ht hw d' dialect hd =>
    simp only [EStateM.Result.ok.injEq] at h
    obtain ⟨rfl, rfl⟩ := h
    have := next_some ht
    exact ⟨Nat.le_of_lt this, fun _ => this⟩
  | case4 r d t ht hw hd ih =>
    have := next_some ht
    have := ih h
    exact ⟨by omega, fun hc => by have := this.2 hc; omega⟩
  | case5 r d t ht hw =>
    simp only [EStateM.Result.ok.injEq] at h
    obtain ⟨rfl, rfl⟩ := h
    have := next_some ht
    exact ⟨Nat.le_of_lt this, fun _ => this⟩

theorem readNaked_ok {c : Scanned} {r r' : Reader} {e : CellEnd × Nat}
    (h : r.readNaked c = .ok e r') : r'.left ≤ r.left := by
  fun_induction readNaked c r with
  | case1 c r t dialect ht =>
    simp only [EStateM.Result.ok.injEq] at h
    obtain ⟨-, rfl⟩ := h
    exact Nat.le_refl _
  | case2 => simp at h
  | case3 c r ht t hn =>
    simp only [EStateM.Result.ok.injEq] at h
    obtain ⟨-, rfl⟩ := h
    exact (next_none hn :)
  | case4 c r ht d t hn ih => exact Nat.le_trans (ih h) (Nat.le_of_lt (next_some hn :))

theorem readEnclosed_ok {q : Char} {r r' : Reader} {e : CellEnd × Nat}
    (h : r.readEnclosed q = .ok e r') : r'.left ≤ r.left := by
  fun_induction readEnclosed q r with
  | case1 => simp at h
  | case2 r t hn =>
    simp only [EStateM.Result.ok.injEq] at h
    obtain ⟨-, rfl⟩ := h
    exact next_none hn
  | case3 r c t hn hc ih => exact Nat.le_trans (ih h) (Nat.le_of_lt (next_some hn :))
  | case4 => simp at h
  | case5 r c t hn hc t' hn' =>
    simp only [EStateM.Result.ok.injEq] at h
    obtain ⟨-, rfl⟩ := h
    exact Nat.le_trans (next_none hn' :) (Nat.le_of_lt (next_some hn :))
  | case6 r c t hn hc d t' hn' hd ih =>
    exact Nat.le_trans (ih h) (Nat.le_of_lt (Nat.lt_trans (next_some hn' :) (next_some hn :)))
  | case7 r c t hn hc d t' hn' hd =>
    exact Nat.le_trans (readNaked_ok h :)
      (Nat.le_of_lt (Nat.lt_trans (next_some hn' :) (next_some hn :)))

theorem readFirst_ok {r r' : Reader} {c : Option Scanned} (h : r.readFirst = .ok c r') :
    r'.left ≤ r.left ∧ (c.isSome → r'.left < r.left) := by
  unfold readFirst at h
  split at h
  · exact skipWhitespace_ok h
  · cases c with
    | none => simpa using next_none h
    | some c =>
      have := next_some h
      exact ⟨Nat.le_of_lt this, fun _ => this⟩

theorem readFrom_ok {c : Scanned} {r r' : Reader} {e : CellEnd × Nat}
    (h : r.readFrom c = .ok e r') : r'.left ≤ r.left := by
  unfold readFrom at h
  split at h
  · exact (readEnclosed_ok h :)
  · exact (readNaked_ok h :)

/-- Reading a cell leaves fewer characters, unless the input has ended. -/
theorem readCell_ok {r r' : Reader} {ending : CellEnd} (h : r.readCell = .ok ending r') :
    r'.left ≤ r.left ∧ (ending ≠ .inputEnd → r'.left < r.left) := by
  unfold readCell at h
  split at h
  · simp at h
  · rename_i hf
    simp only [EStateM.Result.ok.injEq] at h
    obtain ⟨rfl, rfl⟩ := h
    exact ⟨(readFirst_ok hf).1, fun hne => absurd rfl hne⟩
  · rename_i hf
    split at h
    · simp at h
    · rename_i hr
      simp only [EStateM.Result.ok.injEq] at h
      obtain ⟨rfl, rfl⟩ := h
      have hlt := (readFirst_ok hf).2 rfl
      have := readFrom_ok hr
      simp only [left] at *
      exact ⟨by omega, fun _ => by omega⟩

/-! ### Rows -/

/-- Hands over the cell in the buffer. -/
def handOver (row column : Nat) (r : Reader) : Reader :=
  { r with handed := ⟨row, column, r.cell⟩ :: r.handed }

/-- Takes away the cells handed over so far, in order. -/
def collect (r : Reader) : List Handed × Reader := (r.handed.reverse, { r with handed := [] })

/-- Does what becomes of the line after a cell. -/
def heed (r : Reader) : LineMode → Reader
  | .handing => r
  | .skipping _ => { r with strategy := .discard }
  | .stopped => { r with phase := .stopped }

/-- Hands over the cell in the buffer and heeds the verdict on it, unless the
line is passed over. -/
def present (judge : Judge) (row column : Nat) (mode : LineMode) (r : Reader) :
    LineMode × Reader :=
  match mode with
  | .handing =>
    let mode := LineMode.ofVerdict (judge row column r.cell)
    (mode, (r.handOver row column).heed mode)
  | .skipping _ | .stopped => (mode, r)

theorem left_heed (r : Reader) (mode : LineMode) : (r.heed mode).left = r.left := by
  cases mode <;> rfl

theorem phase_heed {r : Reader} {mode : LineMode} (h : mode ≠ .stopped) :
    (r.heed mode).phase = r.phase := by
  cases mode with
  | handing | skipping => rfl
  | stopped => exact absurd rfl h

theorem left_present (judge : Judge) (row column : Nat) (mode : LineMode) (r : Reader) :
    (r.present judge row column mode).2.left = r.left := by
  cases mode with
  | handing => exact left_heed ..
  | skipping | stopped => rfl

/-- Unless it stops the line, presenting a cell does not change the phase. -/
theorem phase_present {judge : Judge} {row column : Nat} {mode : LineMode} {r : Reader}
    (h : (r.present judge row column mode).1 ≠ .stopped) :
    (r.present judge row column mode).2.phase = r.phase := by
  cases mode with
  | handing => exact phase_heed h
  | skipping | stopped => rfl

/-- A line that presenting a cell stops ends the read. -/
theorem phase_present_stopped {judge : Judge} {row column : Nat} {mode : LineMode} {r : Reader}
    (hm : mode ≠ .stopped) (h : (r.present judge row column mode).1 = .stopped) :
    (r.present judge row column mode).2.phase = .stopped := by
  cases mode with
  | handing =>
    simp only [present] at h ⊢
    rw [h]
    rfl
  | skipping => simp [present] at h
  | stopped => exact absurd rfl hm

/-- Reads the cells of `row` from `column` on.  Gives whether there was
anything of the row. -/
def readCells (judge : Judge) (row column : Nat) (mode : LineMode) (r : Reader) :
    Attempt Reader Bool :=
  match _h : r.readCell with
  | .error e r' => .error e r'
  | .ok ending r' =>
    -- Nothing at all was read, so there is no such row.
    if ending = .inputEnd ∧ column = 0 ∧ r'.position = r.position then .ok false r'
    else
      let p := r'.present judge row column mode
      if p.1 = .stopped then .ok true p.2
      else if ending = .terminator .separator then readCells judge row (column + 1) p.1 p.2
      else .ok true (if p.1 = .skipping true then { p.2 with phase := .stopped } else p.2)
termination_by r.left
decreasing_by
  rename_i hs
  rw [left_present]
  exact (readCell_ok _h).2 (by simp [hs])

/-- Brings the account of the bytes read up to date. -/
def account (r : Reader) : Reader :=
  { r with progress := r.progress + (r.position - r.accounted), accounted := r.position }

/-- Reads one line and hands its cells over as `row`.  Gives whether there was
anything of it: a row that the input ends before is not handed over.  A
failure leaves the strategy as it was when the source failed. -/
def readRow (judge : Judge) (row : Nat) (r : Reader) : Attempt Reader Bool :=
  match r.readCells judge row 0 .handing with
  | .error e r => .error e r
  | .ok found r' => .ok found { r' with strategy := r.strategy }.account

theorem readCell_phase {r r' : Reader} {ending : CellEnd} (h : r.readCell = .ok ending r') :
    r'.phase = ending.phase := by
  unfold readCell at h
  split at h
  · simp at h
  · simp only [EStateM.Result.ok.injEq] at h
    obtain ⟨rfl, rfl⟩ := h
    rfl
  · split at h
    · simp at h
    · simp only [EStateM.Result.ok.injEq] at h
      obtain ⟨rfl, rfl⟩ := h
      rfl

/-- Reading the cells of a row leaves fewer characters, unless the read is at
its end. -/
theorem readCells_ok {judge : Judge} {row column : Nat} {mode : LineMode} {r r' : Reader}
    {found : Bool} (hm : mode ≠ .stopped) (h : r.readCells judge row column mode = .ok found r') :
    r'.left ≤ r.left ∧ (r'.phase.isFinal ∨ r'.left < r.left) := by
  fun_induction readCells judge row column mode r with
  | case1 => simp at h
  | case2 column mode r ending t ht he =>
    simp only [EStateM.Result.ok.injEq] at h
    obtain ⟨-, rfl⟩ := h
    refine ⟨(readCell_ok ht).1, .inl ?_⟩
    rw [readCell_phase ht, he.1]
    rfl
  | case3 column mode r ending t ht he p hp =>
    simp only [EStateM.Result.ok.injEq] at h
    obtain ⟨-, rfl⟩ := h
    refine ⟨by rw [left_present]; exact (readCell_ok ht).1, .inl ?_⟩
    rw [phase_present_stopped hm hp]
    rfl
  | case4 column mode r t p hp ht he ih =>
    -- A separator was read before the cells that follow.
    have hlt := (readCell_ok ht).2 (by simp)
    obtain ⟨h1, h2⟩ := ih hp h
    rw [left_present] at h1 h2
    exact ⟨by omega, h2.imp_right fun h2 => by omega⟩
  | case5 column mode r ending t ht he p hp hs =>
    simp only [EStateM.Result.ok.injEq] at h
    obtain ⟨-, rfl⟩ := h
    have hl : (if p.1 = .skipping true then { p.2 with phase := .stopped } else p.2).left =
        t.left := by
      split <;> exact left_present ..
    rw [hl]
    -- The row ended by itself: with a line end, or with the input.
    refine ⟨(readCell_ok ht).1, ?_⟩
    cases ending with
    | terminator k => exact .inr ((readCell_ok ht).2 (by simp))
    | inputEnd =>
      left
      split
      · rfl
      · rw [phase_present hp, readCell_phase ht]
        rfl

/-- Reading a row leaves fewer characters, unless the read is at its end. -/
theorem readRow_ok {judge : Judge} {row : Nat} {r r' : Reader} {found : Bool}
    (h : r.readRow judge row = .ok found r') :
    r'.left ≤ r.left ∧ (r'.phase.isFinal ∨ r'.left < r.left) := by
  unfold readRow at h
  split at h
  · simp at h
  · rename_i hc
    simp only [EStateM.Result.ok.injEq] at h
    obtain ⟨-, rfl⟩ := h
    exact (readCells_ok (by decide : LineMode.handing ≠ .stopped) hc :)

/-! ### Whole inputs -/

/-- Reads row after row, the next of which is `row`, until the input ends or a
verdict stops the read.  Gives the number of rows. -/
def readRows (judge : Judge) (row : Nat) (r : Reader) : Attempt Reader Nat :=
  if r.phase.isFinal then .ok row r
  else
    match _h : r.readRow judge row with
    | .error e r => .error e r
    | .ok found r' => readRows judge (if found then row + 1 else row) r'
termination_by r.left + (if r.phase.isFinal then 0 else 1)
decreasing_by
  rename_i hf
  have := readRow_ok _h
  -- Either the read is now at its end, or characters have gone.
  rw [if_neg hf]
  split
  · omega
  · rename_i hf'
    have := this.2.resolve_left hf'
    omega

/-- What there is to say after `rows` rows. -/
def summary (r : Reader) (rows : Nat) : Summary where
  rows := rows
  bytesRead := r.position
  stopped := r.phase == .stopped
  separator := r.dialect.separator
  lineEnd := r.dialect.lineEnd
  encoding := r.encoding
  bytewise := false

/-- Reads until the input ends or a verdict stops the read. -/
def read (judge : Judge) (r : Reader) : Attempt Reader Summary :=
  match r.readRows judge 0 with
  | .error e r => .error e r
  | .ok rows r => .ok (r.summary rows) r

/-- What comes out of reading to the end. -/
def outcome (judge : Judge) (r : Reader) : Outcome :=
  match r.read judge with
  | .error e r => ⟨r.handed.reverse, .error e, r.progress⟩
  | .ok summary r => ⟨r.handed.reverse, .ok summary, r.progress⟩

end Reader

end Tabular
