/-
What a row leaves behind, whether it is read or fails.

* `Reader.Frame` — two readers that differ only in the cell being read;
* `Reader.frame_readCell` — reading a cell changes nothing else;
* `Reader.RowPart` — what the part of a row that was read has left behind;
* `Reader.rowPart_readCells` — of a row that fails this is the part before the
  failure;
* `Reader.strategy_readRow` — a row that is read puts the strategy back, and a
  row that fails does unless it was being passed over.

Design notes: nothing is assumed of the source, so all of this holds wherever
it fails, and however often.
-/
import Tabular.Proofs.Read.Heed

namespace Tabular

namespace Reader

/-- Two readers differ only in the cell being read and in what is to come. -/
structure Frame (r r' : Reader) : Prop where
  strategy : r'.strategy = r.strategy
  viewed : r'.viewed = r.viewed
  progress : r'.progress = r.progress
  accounted : r'.accounted = r.accounted
  handed : r'.handed = r.handed

namespace Frame

variable {r s t : Reader}

theorem refl (r : Reader) : r.Frame r := ⟨rfl, rfl, rfl, rfl, rfl⟩

theorem trans (h : r.Frame s) (h' : s.Frame t) : r.Frame t :=
  ⟨h'.strategy.trans h.strategy, h'.viewed.trans h.viewed, h'.progress.trans h.progress,
    h'.accounted.trans h.accounted, h'.handed.trans h.handed⟩

/-- Only these fields count. -/
theorem update (h : r.Frame s) (chars : Chars) (dialect : Dialect) (buffer : CellBuffer)
    (phase : Phase) : r.Frame { s with chars, dialect, buffer, phase } :=
  ⟨h.strategy, h.viewed, h.progress, h.accounted, h.handed⟩

end Frame

variable {r : Reader} {judge : Judge} {row column : Nat} {mode : LineMode}

/-! ### One cell -/

theorem frame_next {x : Attempt Reader (Option Scanned)} (h : r.next = x) : r.Frame x.state := by
  subst h
  rw [next]
  cases r.chars.next r.strategy r.dialect.folds <;> exact (Frame.refl r).update ..

/-- A character is added to the cell, and then another is read. -/
theorem frame_next_append {c : Scanned} {x : Attempt Reader (Option Scanned)}
    (h : (r.append c).next = x) : r.Frame x.state :=
  ((Frame.refl r).update ..).trans (frame_next h)

theorem frame_skipWhitespace {x : Attempt Reader (Option Scanned)} (h : r.skipWhitespace = x) :
    r.Frame x.state := by
  subst h
  fun_induction skipWhitespace r with
  | case1 r e t ht => exact frame_next ht
  | case2 r t ht => exact frame_next ht
  | case3 r c t ht hw k dialect hd => exact (frame_next ht).update ..
  | case4 r c t ht hw hd ih => exact (frame_next ht).trans ih
  | case5 r c t ht hw => exact frame_next ht

theorem frame_readNaked {c : Scanned} {x : Attempt Reader (CellEnd × Nat)}
    (h : r.readNaked c = x) : r.Frame x.state := by
  subst h
  fun_induction readNaked c r with
  | case1 c r t dialect ht => exact (Frame.refl r).update ..
  | case2 c r ht e t hn => exact frame_next_append hn
  | case3 c r ht t hn => exact frame_next_append hn
  | case4 c r ht d t hn ih => exact (frame_next_append hn).trans ih

theorem frame_readEnclosed {q : Char} {x : Attempt Reader (CellEnd × Nat)}
    (h : r.readEnclosed q = x) : r.Frame x.state := by
  subst h
  fun_induction readEnclosed q r with
  | case1 r e t hn => exact frame_next hn
  | case2 r t hn => exact frame_next hn
  | case3 r c t hn hc ih => exact ((frame_next hn).update ..).trans ih
  | case4 r c t hn hc e t' hn' => exact (frame_next hn).trans (frame_next_append hn')
  | case5 r c t hn hc t' hn' =>
    exact ((frame_next hn).trans (frame_next_append hn')).update ..
  | case6 r c t hn hc d t' hn' hd ih =>
    exact ((frame_next hn).trans (frame_next_append hn')).trans ih
  | case7 r c t hn hc d t' hn' hd =>
    have hquote := (frame_next hn).trans (frame_next_append hn')
    exact (hquote.update ..).trans (frame_readNaked rfl)

theorem frame_readFirst {x : Attempt Reader (Option Scanned)} (h : r.readFirst = x) :
    r.Frame x.state := by
  rw [readFirst] at h
  split at h
  · exact frame_skipWhitespace h
  · exact frame_next h

theorem frame_readFrom {c : Scanned} {x : Attempt Reader (CellEnd × Nat)}
    (h : r.readFrom c = x) : r.Frame x.state := by
  rw [readFrom] at h
  split at h
  · exact ((Frame.refl r).update ..).trans (frame_readEnclosed h)
  · exact ((Frame.refl r).update ..).trans (frame_readNaked h)

/-- Reading a cell changes nothing but the cell, also where it fails. -/
theorem frame_readCell {x : Attempt Reader CellEnd} (h : r.readCell = x) : r.Frame x.state := by
  subst h
  rw [readCell]
  split
  · rename_i hf
    exact ((Frame.refl r).update ..).trans (frame_readFirst hf)
  · rename_i hf
    exact (((Frame.refl r).update ..).trans (frame_readFirst hf)).update ..
  · rename_i hf
    have hfirst := ((Frame.refl r).update ..).trans (frame_readFirst hf)
    split
    · rename_i hr
      exact hfirst.trans (frame_readFrom hr)
    · rename_i hr
      exact (hfirst.trans (frame_readFrom hr)).update ..

/-! ### Rows -/

/-- What the part of a row from `column` on has left behind: some cells handed
over, of which only the last can have had a verdict other than to go on, and
the strategy that this verdict asks for. -/
structure RowPart (judge : Judge) (row column : Nat) (r r' : Reader) (cells : List Handed) :
    Prop where
  viewed : r'.viewed = r.viewed
  progress : r'.progress = r.progress
  accounted : r'.accounted = r.accounted
  handed : r'.handed = cells.reverse ++ r.handed
  rows : ∀ h ∈ cells, h.row = row
  columns : cells.map Handed.column = List.range' column cells.length
  proceeds : ∀ h ∈ cells.dropLast, judge.on h = .proceed
  strategy : r'.strategy =
    if cells.any (fun h => (judge.on h).skips) then .discard else r.strategy

/-- What a reader changes to after a verdict. -/
theorem heed_eq (r : Reader) (v : Verdict) :
    r.heed (.ofVerdict v) = { r with
      strategy := if v.skips then .discard else r.strategy
      phase := if v = .stop then .stopped else r.phase } := by
  cases v <;> rfl

namespace RowPart

variable {s t : Reader} {cells : List Handed}

theorem nil (h : r.Frame s) : r.RowPart judge row column s [] :=
  ⟨h.viewed, h.progress, h.accounted, h.handed, by simp, rfl, by simp, h.strategy⟩

/-- One cell is handed over, and none after it. -/
theorem single (h : r.Frame t)
    (hs : ((t.handOver row column).heed (.ofVerdict (judge row column t.cell))).Frame s) :
    r.RowPart judge row column s [⟨row, column, t.cell⟩] := by
  rw [heed_eq] at hs
  refine ⟨hs.viewed.trans h.viewed, hs.progress.trans h.progress, hs.accounted.trans h.accounted,
    hs.handed.trans (congrArg (_ :: ·) h.handed), by simp, rfl, by simp, hs.strategy.trans ?_⟩
  show (if (judge row column t.cell).skips then Strategy.discard else t.strategy) = _
  rw [h.strategy, List.any_cons, List.any_nil, Bool.or_false]
  rfl

/-- A cell is handed over, and then others. -/
theorem cons (h : r.Frame t) (hv : judge row column t.cell = .proceed)
    (hs : (t.handOver row column).RowPart judge row (column + 1) s cells) :
    r.RowPart judge row column s (⟨row, column, t.cell⟩ :: cells) := by
  have hon : judge.on ⟨row, column, t.cell⟩ = .proceed := hv
  refine ⟨hs.viewed.trans h.viewed, hs.progress.trans h.progress, hs.accounted.trans h.accounted,
    ?_, ?_, ?_, ?_, ?_⟩
  · rw [hs.handed, handOver, h.handed, List.reverse_cons, List.append_assoc]
    rfl
  · simpa using hs.rows
  · rw [List.map_cons, hs.columns, List.length_cons, List.range'_succ]
  · intro g hg
    cases cells with
    | nil => simp at hg
    | cons c cells =>
      rw [List.dropLast_cons_cons, List.mem_cons] at hg
      rcases hg with rfl | hg
      · exact hon
      · exact hs.proceeds g hg
  · rw [hs.strategy, List.any_cons, hon, ← h.strategy]
    rfl

end RowPart

/-- While a row is passed over only its cells are read. -/
theorem frame_readCells_skipping {thenStop : Bool} {x : Attempt Reader Bool}
    (h : r.readCells judge row column (.skipping thenStop) = x) : r.Frame x.state := by
  subst h
  generalize hm : LineMode.skipping thenStop = mode
  fun_induction readCells judge row column mode r with
  | case1 column mode r e t ht => exact frame_readCell ht
  | case2 column mode r ending t ht he => exact frame_readCell ht
  | case3 column mode r ending t ht he p hp =>
    subst hm
    exact frame_readCell ht
  | case4 column mode r t p hp ht he ih =>
    subst hm
    exact (frame_readCell ht).trans (ih rfl)
  | case5 column mode r ending t ht he p hp hs =>
    subst hm
    rw [Attempt.state]
    split
    · exact (frame_readCell ht).update ..
    · exact frame_readCell ht

/-- A row that is read, and a row that fails, hand over the cells up to the
first with a verdict other than to go on. -/
theorem rowPart_readCells {x : Attempt Reader Bool}
    (h : r.readCells judge row column .handing = x) :
    ∃ cells, r.RowPart judge row column x.state cells := by
  subst h
  generalize hm : LineMode.handing = mode
  fun_induction readCells judge row column mode r with
  | case1 column mode r e t ht => exact ⟨[], .nil (frame_readCell ht)⟩
  | case2 column mode r ending t ht he => exact ⟨[], .nil (frame_readCell ht)⟩
  | case3 column mode r ending t ht he p hp =>
    subst hm
    exact ⟨_, .single (frame_readCell ht) (.refl _)⟩
  | case4 column mode r t p hp ht he ih =>
    subst hm
    have hp' : p = (.ofVerdict (judge row column t.cell),
        (t.handOver row column).heed (.ofVerdict (judge row column t.cell))) := rfl
    clear_value p
    subst hp'
    dsimp only at hp ih ⊢
    have hcell : r.Frame t := frame_readCell ht
    -- What comes of the other cells is a matter of the verdict on this one.
    cases hv : judge row column t.cell with
    | proceed =>
      rw [hv] at ih
      obtain ⟨cells, hpart⟩ := ih rfl
      exact ⟨_, .cons hcell hv hpart⟩
    | skipLine | skipLineThenStop =>
      refine ⟨_, .single hcell ?_⟩
      rw [hv]
      exact frame_readCells_skipping rfl
    | stop =>
      rw [hv] at hp
      exact absurd rfl hp
  | case5 column mode r ending t ht he p hp hs =>
    subst hm
    refine ⟨_, .single (frame_readCell ht) ?_⟩
    rw [Attempt.state]
    split
    · exact (Frame.refl _).update ..
    · exact .refl _

/-- A row that is read puts the strategy back.  So does a row that fails,
unless a verdict on a cell of it was to pass over the rest: then every cell
that is read later on is dropped as well. -/
theorem strategy_readRow (judge : Judge) (row : Nat) (r : Reader) :
    ∃ cells : List Handed, (r.readRow judge row).state.handed = cells.reverse ++ r.handed ∧
      (∀ h ∈ cells, h.row = row) ∧ cells.map Handed.column = List.range cells.length ∧
      match r.readRow judge row with
      | .ok _ r' => r'.strategy = r.strategy
      | .error _ r' => r'.strategy =
          if cells.any (fun h => (judge.on h).skips) then .discard else r.strategy := by
  rw [readRow]
  cases hc : r.readCells judge row 0 .handing with
  | ok found t =>
    obtain ⟨cells, hpart⟩ := rowPart_readCells hc
    exact ⟨cells, hpart.handed, hpart.rows, by rw [hpart.columns, List.range_eq_range'], rfl⟩
  | error e t =>
    obtain ⟨cells, hpart⟩ := rowPart_readCells hc
    exact ⟨cells, hpart.handed, hpart.rows, by rw [hpart.columns, List.range_eq_range'],
      hpart.strategy⟩

/-- The line after a row that failed while it was passed over comes out
empty. -/
example :
    let bytes : List UInt8 := [0x61, 0x2C, 0x62, 0x63, 0x64, 0x0A]
    let read := (ofFeed ⟨bytes, [.upTo 4, .failed "gone"]⟩ .csv {}).map fun r =>
      let r := (r.readRow (fun _ _ _ => .skipLine) 0).state
      (r.strategy, ((r.readRow .always 1).state.handed.map (·.cell.text)))
    read.toOption = some (.discard, ["", "a"]) := by
  decide +kernel

end Reader

end Tabular
