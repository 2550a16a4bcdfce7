/-
The cells that a split finds, one after another.

* `Ends.all_content_or_run` — bytes are a last cell, or a run and a byte that
  ends it;
* `split_nil`, `split_end`, `split_byte` — what a split does in each case;
* `induction_cells` — bytes are split one cell after another;
* `split_progress` — all bytes that a split reads are accounted for;
* `split_append` — a text can be cut after a line end, if that separates no
  cells;
* `split_rows_of_eq` — if it does, there is but one row.
-/
import Mathlib.Data.List.TakeWhile
import Mathlib.Tactic.Common
import Tabular.Read.Bytewise

namespace Tabular.Bytewise

variable {d : Ends} {e : Encoding} {judge : Judge} {p : Place} {mode : LineMode}
  {handed : List Handed} {t : Tally} {run rest : List UInt8} {b : UInt8}

theorem Ends.all_content_or_run (d : Ends) (bytes : List UInt8) :
    (∀ b ∈ bytes, d.isContent b) ∨
      ∃ run b rest, bytes = run ++ b :: rest ∧ (∀ x ∈ run, d.isContent x) ∧
        d.isContent b = false := by
  cases h : bytes.dropWhile d.isContent with
  | nil => exact .inl (List.dropWhile_eq_nil_iff.mp h)
  | cons b rest =>
    right
    refine ⟨bytes.takeWhile d.isContent, b, rest, ?_, fun x hx => List.mem_takeWhile_imp hx, ?_⟩
    · rw [← h, List.takeWhile_append_dropWhile]
    · have := List.head?_dropWhile_not d.isContent bytes
      simpa [h] using this

theorem Ends.eq_of_not_isContent (d : Ends) {b : UInt8} (hb : d.isContent b = false) :
    b = d.separator ∨ b = d.lineEnd := by
  by_contra hne
  push Not at hne
  simp [Ends.isContent, hne.1, hne.2] at hb

/-- At the start of a row the end of the input is no row. -/
theorem split_nil (row position : Nat) :
    split d e judge ⟨row, 0, position⟩ mode handed t [] = .ended row position false handed t := by
  rw [split]
  rfl

/-- The input ends a cell. -/
theorem split_end (hrest : ∀ b ∈ rest, d.isContent b) (hne : ¬ (rest = [] ∧ p.column = 0)) :
    split d e judge p mode handed t rest =
      let q := present judge p (cellAt e p.position rest) mode handed
      let position := p.position + rest.length
      .ended (p.row + 1) position (q.1 == .stopped || q.1 == .skipping true) q.2
        (if q.1 = .stopped then t else t.account position) := by
  have htake : rest.takeWhile d.isContent = rest := List.takeWhile_eq_self_iff.mpr hrest
  rw [split, if_neg (by simpa using hne)]
  split
  · rw [htake]
  · rename_i h
    rw [List.dropWhile_eq_nil_iff.mpr hrest] at h
    simp at h

/-- A byte ends a cell. -/
theorem split_byte (hrun : ∀ x ∈ run, d.isContent x) (hb : d.isContent b = false) :
    split d e judge p mode handed t (run ++ b :: rest) =
      let q := present judge p (cellAt e p.position (d.cellBytes run b)) mode handed
      let position := p.position + run.length + 1
      if q.1 = .stopped then .ended (p.row + 1) position true q.2 t
      else if b = d.separator then
        split d e judge ⟨p.row, p.column + 1, position⟩ q.1 q.2 t rest
      else if q.1 = .skipping true then
        .ended (p.row + 1) position true q.2 (t.account position)
      else split d e judge ⟨p.row + 1, 0, position⟩ .handing q.2 (t.account position) rest := by
  have htake : (run ++ b :: rest).takeWhile d.isContent = run := by
    rw [List.takeWhile_append_of_pos hrun, List.takeWhile_cons_of_neg (by simp [hb]),
      List.append_nil]
  have hdrop : (run ++ b :: rest).dropWhile d.isContent = b :: rest := by
    rw [List.dropWhile_append_of_pos hrun, List.dropWhile_cons_of_neg (by simp [hb])]
  rw [split, if_neg (by simp)]
  split
  · rename_i h
    rw [hdrop] at h
    simp at h
  · rename_i h
    rw [hdrop] at h
    obtain ⟨rfl, rfl⟩ := List.cons.inj h
    rw [htake]

/-- Bytes are split one cell after another. -/
theorem induction_cells (d : Ends) {motive : List UInt8 → Prop}
    (last : ∀ rest, (∀ b ∈ rest, d.isContent b) → motive rest)
    (step : ∀ run b rest, (∀ x ∈ run, d.isContent x) → d.isContent b = false → motive rest →
      motive (run ++ b :: rest)) (bytes : List UInt8) : motive bytes := by
  induction hn : bytes.length using Nat.strongRecOn generalizing bytes with
  | _ n ih =>
    rcases d.all_content_or_run bytes with hall | ⟨run, b, rest, rfl, hrun, hb⟩
    · exact last bytes hall
    · refine step run b rest hrun hb (ih rest.length ?_ rest rfl)
      rw [← hn, List.length_append, List.length_cons]
      omega

/-! ### The account of the bytes -/

namespace Tally

/-- The account goes up to a place that is not past `position`, and all bytes
up to there are in it. -/
def Covers (t : Tally) (position : Nat) : Prop := t.progress = t.accounted ∧ t.accounted ≤ position

variable {position position' : Nat}

theorem covers_zero : zero.Covers position := ⟨rfl, Nat.zero_le _⟩

theorem Covers.mono (h : t.Covers position) (hle : position ≤ position') : t.Covers position' :=
  ⟨h.1, h.2.trans hle⟩

theorem Covers.progress_account (h : t.Covers position) :
    (t.account position).progress = position := by
  obtain ⟨heq, hle⟩ := h
  show t.progress + (position - t.accounted) = position
  omega

theorem Covers.account (h : t.Covers position) : (t.account position).Covers position :=
  ⟨h.progress_account, Nat.le_refl _⟩

end Tally

/-- All bytes that a split reads are accounted for in the end, wherever a
verdict stops it. -/
theorem split_progress (bytes : List UInt8) (h : t.Covers p.position) :
    let r := split d e judge p mode handed t bytes
    r.progress = r.bytesRead := by
  induction bytes using induction_cells d generalizing p mode handed t with
  | last rest hrest =>
    by_cases hnil : rest = [] ∧ p.column = 0
    · obtain ⟨row, column, position⟩ := p
      obtain ⟨rfl, rfl⟩ := hnil
      rw [split_nil]
      exact h.progress_account
    · rw [split_end hrest hnil]
      have h := h.mono (Nat.le_add_right p.position rest.length)
      show (Tally.account _ _).progress = p.position + rest.length
      split
      · exact h.progress_account
      · exact h.account.progress_account
  | step run b rest hrun hb ih =>
    have h := h.mono (show p.position ≤ p.position + run.length + 1 by omega)
    rw [split_byte hrun hb]
    dsimp only
    generalize present judge p (cellAt e p.position (d.cellBytes run b)) mode handed = q
    split_ifs with hstop hseparator hskip
    · exact h.progress_account
    · exact ih h
    · exact h.account.progress_account
    · exact ih h.account

/-! ### Where every cell is handed over -/

theorem split_end_always (hrest : ∀ b ∈ rest, d.isContent b) (hne : ¬ (rest = [] ∧ p.column = 0)) :
    split d e .always p .handing handed t rest =
      .ended (p.row + 1) (p.position + rest.length) false
        (⟨p.row, p.column, cellAt e p.position rest⟩ :: handed)
        (t.account (p.position + rest.length)) :=
  split_end hrest hne

theorem split_byte_always (hrun : ∀ x ∈ run, d.isContent x) (hb : d.isContent b = false) :
    split d e .always p .handing handed t (run ++ b :: rest) =
      let position := p.position + run.length + 1
      let handed := ⟨p.row, p.column, cellAt e p.position (d.cellBytes run b)⟩ :: handed
      if b = d.separator then
        split d e .always ⟨p.row, p.column + 1, position⟩ .handing handed t rest
      else split d e .always ⟨p.row + 1, 0, position⟩ .handing handed (t.account position) rest := by
  rw [split_byte hrun hb]
  rfl

theorem split_stopped_always (bytes : List UInt8) (p : Place) (handed : List Handed) (t : Tally) :
    (split d e .always p .handing handed t bytes).stopped = false := by
  induction bytes using induction_cells d generalizing p handed t with
  | last rest hrest =>
    by_cases hnil : rest = [] ∧ p.column = 0
    · obtain ⟨row, column, position⟩ := p
      obtain ⟨rfl, rfl⟩ := hnil
      rw [split_nil]
      rfl
    · rw [split_end_always hrest hnil]
      rfl
  | step run b rest hrun hb ih =>
    rw [split_byte_always hrun hb]
    dsimp only
    split
    · exact ih ..
    · exact ih ..

/-- A text can be cut after a line end, if that separates no cells. -/
theorem split_append (hd : d.separator ≠ d.lineEnd) (xs : List UInt8) (p : Place)
    (handed : List Handed) (t : Tally) (rest : List UInt8) :
    let head := split d e .always p .handing handed t (xs ++ [d.lineEnd])
    split d e .always p .handing handed t (xs ++ d.lineEnd :: rest) =
      split d e .always ⟨head.rows, 0, head.bytesRead⟩ .handing head.handed
        ⟨head.bytesRead, head.progress⟩ rest := by
  have heol : d.isContent d.lineEnd = false := by simp [Ends.isContent]
  induction xs using induction_cells d generalizing p handed t with
  | last xs hxs =>
    -- The account is up to date after the line end, so it is not changed where the head ends.
    have hsame : ∀ (t : Tally) (position : Nat),
        (t.account position).account position = t.account position := fun t position => by
      rw [Tally.account, Tally.account, Nat.sub_self, Nat.add_zero]
    rw [split_byte_always hxs heol, split_byte_always hxs heol]
    dsimp only
    rw [if_neg hd.symm, if_neg hd.symm, split_nil, Result.ended, hsame]
    rfl
  | step run b xs hrun hb ih =>
    rw [List.append_assoc, List.append_assoc, List.cons_append, List.cons_append,
      split_byte_always hrun hb, split_byte_always hrun hb]
    dsimp only
    split
    · exact ih ..
    · exact ih ..

/-- If line ends separate cells there is but one row. -/
theorem split_rows_of_eq (hd : d.separator = d.lineEnd) {bytes : List UInt8} {p : Place}
    (hne : ¬ (bytes = [] ∧ p.column = 0)) :
    (split d e .always p .handing handed t bytes).rows = p.row + 1 := by
  induction bytes using induction_cells d generalizing p handed with
  | last rest hrest =>
    rw [split_end_always hrest hne]
    rfl
  | step run b rest hrun hb ih =>
    have hs : b = d.separator := (d.eq_of_not_isContent hb).elim id fun h => h.trans hd.symm
    rw [split_byte_always hrun hb]
    dsimp only
    rw [if_pos hs]
    exact ih fun h => absurd h.2 (Nat.succ_ne_zero _)

end Tabular.Bytewise
