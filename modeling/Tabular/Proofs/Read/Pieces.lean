/-
Splitting bytes at every line end, and each line at every separator.

* `Piece` — bytes at an offset of a text, and `Piece.splitOn` — those between
  two that are equal to a given one;
* `Ends.lines` — the lines of bytes;
* `split_line`, `split_lastLine` — one flat split finds the cells of a line;
* `split_lines` — and so those of a text;
* `Piece.LiesIn` — a piece is where its offset says;
* `Format.splitBytes_pieces` — what a text is split into are the pieces of its
  lines.

Design notes: separator and line end are two bytes, or lines would be split at
what they end with.  A carriage return that is dropped must be no separator.
-/
import Tabular.Proofs.Read.Pull
import Tabular.Proofs.Read.Runs

namespace Tabular

namespace Bytewise

/-- Bytes at an offset of a text. -/
structure Piece where
  start : Nat
  bytes : List UInt8

/-- Pieces one after another, with one byte between two of them. -/
def placePieces (start : Nat) : List (List UInt8) → List Piece
  | [] => []
  | bytes :: rest => ⟨start, bytes⟩ :: placePieces (start + bytes.length + 1) rest

namespace Piece

/-- The pieces between bytes equal to `b`. -/
def splitOn (p : Piece) (b : UInt8) : List Piece := placePieces p.start (p.bytes.splitOn b)

/-- The piece without a carriage return at its end. -/
def withoutReturn (p : Piece) : Piece :=
  if p.bytes.getLast? = some 13 then { p with bytes := p.bytes.dropLast } else p

/-- The cell made of a piece. -/
def cell (e : Encoding) (p : Piece) : Cell := cellAt e p.start p.bytes

end Piece

namespace Ends

/-- A piece before a line end, which may have a carriage return to it. -/
def line (d : Ends) (p : Piece) : Piece := if d.folds then p.withoutReturn else p

/-- The lines of a piece: the pieces between line ends, of which the last is no
line if there is nothing of it. -/
def lines (d : Ends) (p : Piece) : List Piece :=
  let pieces := p.splitOn d.lineEnd
  pieces.dropLast.map d.line ++ pieces.getLast?.toList.filter fun last => last.bytes ≠ []

/-- The cells of a line. -/
def lineCells (d : Ends) (e : Encoding) (line : Piece) : List Cell :=
  (line.splitOn d.separator).map (Piece.cell e)

end Ends

variable {d : Ends} {e : Encoding} {start : Nat} {b : UInt8} {bytes run rest : List UInt8}

theorem Piece.splitOn_of_not_mem (h : b ∉ bytes) :
    Piece.splitOn ⟨start, bytes⟩ b = [⟨start, bytes⟩] := by
  rw [splitOn, List.splitOn_eq_singleton h]
  rfl

theorem Piece.splitOn_append (h : b ∉ run) (rest : List UInt8) :
    Piece.splitOn ⟨start, run ++ b :: rest⟩ b =
      ⟨start, run⟩ :: Piece.splitOn ⟨start + run.length + 1, rest⟩ b := by
  rw [splitOn, List.splitOn_append_cons_self_of_not_mem h]
  rfl

theorem Piece.splitOn_ne_nil (p : Piece) (b : UInt8) : p.splitOn b ≠ [] := by
  rw [splitOn]
  cases h : p.bytes.splitOn b with
  | nil => exact absurd h (List.splitOn_ne_nil b p.bytes)
  | cons bytes rest => exact List.cons_ne_nil _ _

namespace Ends

/-- What no line end comes after is a line if there is anything of it. -/
theorem lines_of_not_mem (h : d.lineEnd ∉ bytes) :
    d.lines ⟨start, bytes⟩ = if bytes = [] then [] else [⟨start, bytes⟩] := by
  rw [lines, Piece.splitOn_of_not_mem h]
  cases bytes <;> rfl

theorem lines_append (h : d.lineEnd ∉ run) (rest : List UInt8) :
    d.lines ⟨start, run ++ d.lineEnd :: rest⟩ =
      d.line ⟨start, run⟩ :: d.lines ⟨start + run.length + 1, rest⟩ := by
  have hne := Piece.splitOn_ne_nil ⟨start + run.length + 1, rest⟩ d.lineEnd
  rw [lines, Piece.splitOn_append h, lines]
  rw [List.dropLast_cons_of_ne_nil hne, List.getLast?_cons_of_ne_nil hne]
  rfl

theorem lineCells_of_not_mem (h : d.separator ∉ bytes) :
    d.lineCells e ⟨start, bytes⟩ = [cellAt e start bytes] := by
  rw [lineCells, Piece.splitOn_of_not_mem h]
  rfl

theorem lineCells_append (h : d.separator ∉ run) (rest : List UInt8) :
    d.lineCells e ⟨start, run ++ d.separator :: rest⟩ =
      cellAt e start run :: d.lineCells e ⟨start + run.length + 1, rest⟩ := by
  rw [lineCells, Piece.splitOn_append h]
  rfl

/-- A line end takes from its line what it takes from its last cell. -/
theorem line_eq (hd : d.separator ≠ d.lineEnd) (start : Nat) (bytes : List UInt8) :
    d.line ⟨start, bytes⟩ = ⟨start, d.cellBytes bytes d.lineEnd⟩ := by
  rw [line, cellBytes, Piece.withoutReturn]
  dsimp only
  split_ifs with hfolds hlast hcond hcond hcond
  · rfl
  · exact absurd ⟨hfolds, hd.symm, hlast⟩ hcond
  · exact absurd hcond.2.2 hlast
  · rfl
  · exact absurd hcond.1 hfolds
  · rfl

/-- Nothing is taken from what comes before a separator. -/
theorem cellBytes_append (hr : d.folds → d.separator ≠ 13) (run rest : List UInt8) :
    d.cellBytes (run ++ d.separator :: rest) d.lineEnd =
      run ++ d.separator :: d.cellBytes rest d.lineEnd := by
  cases rest with
  | nil =>
    have hlast : ¬ (d.folds = true ∧ d.lineEnd ≠ d.separator ∧
        (run ++ [d.separator]).getLast? = some 13) := by
      rintro ⟨hfolds, -, hlast⟩
      rw [List.getLast?_append, List.getLast?_singleton] at hlast
      exact hr hfolds (Option.some.inj hlast)
    rw [cellBytes, cellBytes, if_neg hlast, if_neg (by simp)]
  | cons x rest =>
    have hlast : (run ++ d.separator :: x :: rest).getLast? = (x :: rest).getLast? := by
      rw [List.getLast?_append, List.getLast?_cons_cons, List.getLast?_cons, Option.some_or]
    rw [cellBytes, cellBytes, hlast]
    split
    · rw [List.dropLast_append_of_ne_nil (List.cons_ne_nil _ _)]
      rfl
    · rfl

theorem separator_not_mem (h : ∀ b ∈ bytes, d.isContent b) : d.separator ∉ bytes := by
  intro hb
  simpa [isContent] using h _ hb

theorem cellBytes_separator (bytes : List UInt8) : d.cellBytes bytes d.separator = bytes :=
  if_neg fun h => h.2.1 rfl

end Ends

/-! ### The split -/

section

variable {row column position : Nat} {handed : List Handed} {t : Tally}

/-- Up to a line end the split finds the cells of a line. -/
theorem split_line (hd : d.separator ≠ d.lineEnd) (hr : d.folds → d.separator ≠ 13)
    (hbytes : d.lineEnd ∉ bytes) (rest : List UInt8) :
    split d e .always ⟨row, column, position⟩ .handing handed t (bytes ++ d.lineEnd :: rest) =
      split d e .always ⟨row + 1, 0, position + bytes.length + 1⟩ .handing
        ((placedLine row column (d.lineCells e (d.line ⟨position, bytes⟩))).reverse ++ handed)
        (t.account (position + bytes.length + 1)) rest := by
  have heol : d.isContent d.lineEnd = false := by simp [Ends.isContent]
  rw [Ends.line_eq hd]
  induction bytes using induction_cells d generalizing column position handed with
  | last bytes hcontent =>
    have hsep : d.separator ∉ d.cellBytes bytes d.lineEnd := fun hb =>
      Ends.separator_not_mem hcontent ((d.cellBytes_prefix ..).subset hb)
    rw [split_byte_always hcontent heol, Ends.lineCells_of_not_mem hsep]
    dsimp only
    rw [if_neg hd.symm]
    rfl
  | step run b bytes hrun hb ih =>
    rw [List.mem_append, List.mem_cons, not_or, not_or] at hbytes
    obtain rfl : b = d.separator :=
      (d.eq_of_not_isContent hb).resolve_right fun hbeol => hbytes.2.1 hbeol.symm
    have hlen : position + (run ++ d.separator :: bytes).length + 1 =
        position + run.length + 1 + bytes.length + 1 := by
      rw [List.length_append, List.length_cons]
      omega
    rw [List.append_assoc, List.cons_append, split_byte_always hrun hb]
    dsimp only
    rw [if_pos rfl, ih hbytes.2.2, hlen, Ends.cellBytes_append hr,
      Ends.lineCells_append (Ends.separator_not_mem hrun), Ends.cellBytes_separator,
      placedLine_cons, List.reverse_cons, List.append_assoc]
    rfl

/-- And so it does where the input ends, if there is anything of a line. -/
theorem split_lastLine (hbytes : d.lineEnd ∉ bytes) (hne : ¬ (bytes = [] ∧ column = 0)) :
    split d e .always ⟨row, column, position⟩ .handing handed t bytes =
      .ended (row + 1) (position + bytes.length) false
        ((placedLine row column (d.lineCells e ⟨position, bytes⟩)).reverse ++ handed)
        (t.account (position + bytes.length)) := by
  induction bytes using induction_cells d generalizing column position handed with
  | last bytes hcontent =>
    rw [split_end_always hcontent hne,
      Ends.lineCells_of_not_mem (Ends.separator_not_mem hcontent)]
    rfl
  | step run b bytes hrun hb ih =>
    rw [List.mem_append, List.mem_cons, not_or, not_or] at hbytes
    obtain rfl : b = d.separator :=
      (d.eq_of_not_isContent hb).resolve_right fun hbeol => hbytes.2.1 hbeol.symm
    have hlen : position + (run ++ d.separator :: bytes).length =
        position + run.length + 1 + bytes.length := by
      rw [List.length_append, List.length_cons]
      omega
    rw [split_byte_always hrun hb]
    dsimp only
    rw [if_pos rfl, ih hbytes.2.2 (by simp), hlen,
      Ends.lineCells_append (Ends.separator_not_mem hrun), Ends.cellBytes_separator,
      placedLine_cons, List.reverse_cons, List.append_assoc]
    rfl

/-- The cells of a text are those of its lines. -/
theorem split_lines (hd : d.separator ≠ d.lineEnd) (hr : d.folds → d.separator ≠ 13)
    (bytes : List UInt8) :
    let lines := d.lines ⟨position, bytes⟩
    ∃ t', split d e .always ⟨row, 0, position⟩ .handing handed t bytes =
      .ended (row + lines.length) (position + bytes.length) false
        ((placedLines row (lines.map (d.lineCells e))).reverse ++ handed) t' := by
  -- Line by line: each ends with the first line end that is left.
  induction bytes using induction_cells ⟨d.lineEnd, d.lineEnd, false⟩
    generalizing row position handed t with
  | last bytes hcontent =>
    have hbytes : d.lineEnd ∉ bytes := Ends.separator_not_mem hcontent
    dsimp only
    rw [Ends.lines_of_not_mem hbytes]
    by_cases hnil : bytes = []
    · subst hnil
      exact ⟨t, split_nil ..⟩
    · refine ⟨t.account (position + bytes.length), ?_⟩
      rw [split_lastLine hbytes fun h => hnil h.1, if_neg hnil]
      simp [placedLines]
  | step run b bytes hrun hb ih =>
    have hrun : d.lineEnd ∉ run := Ends.separator_not_mem hrun
    obtain rfl : b = d.lineEnd := (Ends.eq_of_not_isContent _ hb).elim id id
    obtain ⟨t', hsplit⟩ := @ih (row + 1) (position + run.length + 1)
      ((placedLine row 0 (d.lineCells e (d.line ⟨position, run⟩))).reverse ++ handed)
      (t.account (position + run.length + 1))
    refine ⟨t', ?_⟩
    rw [split_line hd hr hrun, hsplit, Ends.lines_append hrun, List.map_cons, placedLines_cons,
      List.reverse_append, List.append_assoc, List.length_cons, List.length_append,
      List.length_cons]
    congr 1
    · omega
    · omega

end

/-! ### Where the pieces lie -/

namespace Piece

/-- Whether a piece is where its offset says. -/
def LiesIn (p : Piece) (text : List UInt8) : Prop := p.bytes <+: text.drop p.start

variable {p q : Piece} {text : List UInt8}

theorem LiesIn.of_prefix (h : LiesIn ⟨start, bytes⟩ text) (hrun : run <+: bytes) :
    LiesIn ⟨start, run⟩ text := hrun.trans h

/-- The bytes at the offset of a piece are those of the piece. -/
theorem LiesIn.slice_eq (h : p.LiesIn text) :
    (Span.mk p.start (p.start + p.bytes.length)).slice text = p.bytes := by
  rw [Span.slice, Nat.add_sub_cancel_left]
  exact (List.prefix_iff_eq_take.mp h).symm

/-- What comes after a byte lies one further on. -/
theorem LiesIn.after (h : LiesIn ⟨start, run ++ b :: rest⟩ text) :
    LiesIn ⟨start + run.length + 1, rest⟩ text := by
  obtain ⟨more, hmore⟩ := h
  refine ⟨more, ?_⟩
  dsimp only at hmore ⊢
  rw [Nat.add_assoc, ← List.drop_drop, ← hmore, List.append_assoc, List.drop_length_add_append]
  rfl

theorem LiesIn.of_splitOn (h : p.LiesIn text) (hq : q ∈ p.splitOn b) : q.LiesIn text := by
  obtain ⟨start, bytes⟩ := p
  induction bytes using induction_cells ⟨b, b, false⟩ generalizing start with
  | last bytes hcontent =>
    have hb : b ∉ bytes := Ends.separator_not_mem hcontent
    rw [splitOn_of_not_mem hb, List.mem_singleton] at hq
    rwa [hq]
  | step run x bytes hrun hx ih =>
    have hb : b ∉ run := Ends.separator_not_mem hrun
    obtain rfl : x = b := (Ends.eq_of_not_isContent _ hx).elim id id
    rw [splitOn_append hb, List.mem_cons] at hq
    rcases hq with rfl | hq
    · exact h.of_prefix (List.prefix_append ..)
    · exact ih _ h.after hq

theorem LiesIn.line (h : p.LiesIn text) (d : Ends) : (d.line p).LiesIn text := by
  rw [Ends.line, withoutReturn]
  split_ifs
  · exact h.of_prefix (List.dropLast_prefix _)
  · exact h
  · exact h

theorem LiesIn.of_lines (h : p.LiesIn text) {d : Ends} (hq : q ∈ d.lines p) : q.LiesIn text := by
  rw [Ends.lines, List.mem_append] at hq
  rcases hq with hq | hq
  · obtain ⟨piece, hpiece, rfl⟩ := List.mem_map.mp hq
    exact (h.of_splitOn (List.dropLast_subset _ hpiece)).line d
  · have hlast := Option.mem_toList.mp (List.mem_filter.mp hq).1
    exact h.of_splitOn (List.mem_of_getLast? hlast)

end Piece

end Bytewise

namespace Bytewise

/-- What a text is split into from an offset on, be it past the end. -/
theorem run_lines (hd : d.separator ≠ d.lineEnd) (hr : d.folds → d.separator ≠ 13) (e : Encoding)
    (start : Nat) (bytes : List UInt8) :
    let lines := d.lines ⟨start, bytes.drop start⟩
    ∃ t, Bytewise.run d e .always start bytes =
      .ended lines.length bytes.length false
        (placedLines 0 (lines.map (d.lineCells e))).reverse t := by
  rw [Bytewise.run]
  dsimp only
  rcases Nat.le_total start bytes.length with hle | hle
  · obtain ⟨t, hsplit⟩ := @split_lines _ _ 0 start [] .zero hd hr (bytes.drop start)
    refine ⟨t, ?_⟩
    rw [Nat.min_eq_left hle, hsplit, List.length_drop, Nat.add_sub_cancel' hle, Nat.zero_add,
      List.append_nil]
  · refine ⟨.zero, ?_⟩
    rw [Nat.min_eq_right hle, List.drop_eq_nil_of_le hle, List.drop_length, split_nil,
      Ends.lines_of_not_mem List.not_mem_nil]
    rfl

end Bytewise

open Bytewise

/-- What a text is split into, from an offset on: at every line end into lines,
and each line at every separator into the bytes of its cells. -/
theorem Format.splitBytes_pieces {f : Format} {e : Encoding} (h : f.splitsBytes e)
    (hne : f.separator ≠ f.lineEnd) (hr : f.folds → f.separator ≠ .char '\r') (start : Nat)
    (bytes : List UInt8) :
    ∃ d s, f.byteEnds? = some d ∧
      let out := f.splitBytes e .always start bytes
      let lines := d.lines ⟨start, bytes.drop start⟩
      out.handed = placedLines 0
        (lines.map fun line => (line.splitOn d.separator).map (Piece.cell e)) ∧
      out.result = .ok s ∧ s.rows = lines.length ∧ s.bytesRead = bytes.length ∧
      ∀ line ∈ lines, ∀ part ∈ line.splitOn d.separator,
        (Span.mk part.start (part.start + part.bytes.length)).slice bytes = part.bytes := by
  obtain ⟨d, hd, hserves, -⟩ := exists_serves h
  have hends : d.separator ≠ d.lineEnd := mt (separator_eq_lineEnd_iff hd h).mpr hne
  have hreturn : d.folds → d.separator ≠ 13 := by
    intro hfolds hsep
    refine hr (hserves.folds ▸ hfolds) ?_
    rw [hserves.separator, hsep]
    rfl
  obtain ⟨t, hrun⟩ := run_lines hends hreturn e start bytes
  refine ⟨d, f.splitSummary e (d.lines ⟨start, bytes.drop start⟩).length bytes.length false, hd, ?_⟩
  rw [splitBytes, hd]
  dsimp only
  rw [hrun]
  refine ⟨List.reverse_reverse _, rfl, rfl, rfl, fun line hline part hpart => ?_⟩
  have htext : Piece.LiesIn ⟨start, bytes.drop start⟩ bytes := List.prefix_refl _
  exact ((htext.of_lines hline).of_splitOn hpart).slice_eq

/-- A carriage return before a line end belongs to it, one within a line does
not, and a separator that ends the text has an empty cell after it. -/
theorem Format.splitBytes_pieces_returns :
    let bytes : List UInt8 := [0x61, 0x0D, 0x2C, 0x62, 0x0D, 0x0A, 0x0D, 0x0A, 0x63, 0x2C]
    let out := bare.splitBytes .utf8 .always 0 bytes
    out.handed.map (fun h => (h.row, h.column, h.cell.view)) =
        [(0, 0, some ⟨0, 2⟩), (0, 1, some ⟨3, 4⟩), (1, 0, some ⟨6, 6⟩), (2, 0, some ⟨8, 9⟩),
          (2, 1, some ⟨10, 10⟩)] ∧
      ∃ s, out.result = .ok s ∧ s.rows = 3 ∧ s.bytesRead = 10 := by
  intro bytes out
  obtain ⟨d, s, hd, hhanded, hresult, hrows, hread, -⟩ :=
    splitBytes_pieces (f := bare) (e := .utf8) (by decide) (by decide) (by decide) 0 bytes
  obtain rfl : (⟨0x2C, 0x0A, true⟩ : Ends) = d := Option.some.inj hd
  refine ⟨?_, s, hresult, hrows, hread⟩
  rw [show out.handed = _ from hhanded]
  rfl

end Tabular
