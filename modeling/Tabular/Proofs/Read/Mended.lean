/-
What a stream that fails hands over.

* `Reader.next_mended`, …, `Reader.readCell_mended` — what is read before a
  failure is read alike without failures;
* `Reader.handed_suffix_readRows` — reading only adds to what was handed over;
* `Reader.Mends`, `Reader.readRows_mended` — so that a stream that fails hands
  over what comes first of what it would have.

Design notes: a cell is handed over only after it has been read to its end, so
no part of a cell that fails is among those handed over.
-/
import Tabular.Proofs.Input.Mended
import Tabular.Proofs.Read.Failure

namespace Tabular

namespace Reader

variable {r t : Reader} {judge : Judge} {row column : Nat} {mode : LineMode}

/-- The reader of the source without its failures. -/
def mended (r : Reader) : Reader := { r with chars := r.chars.mended }

/-! ### One cell -/

theorem next_mended {c : Option Scanned} (h : r.next = .ok c t) : r.mended.next = .ok c t.mended := by
  rw [next] at h ⊢
  cases hn : r.chars.next r.strategy r.dialect.folds with
  | error e cs => simp [hn] at h
  | ok d cs =>
    rw [hn] at h
    obtain ⟨rfl, rfl⟩ := EStateM.Result.ok.inj h
    rw [show r.mended.chars.next r.mended.strategy r.mended.dialect.folds = _ from
      Chars.next_mended hn]
    rfl

theorem skipWhitespace_mended {c : Option Scanned} (h : r.skipWhitespace = .ok c t) :
    r.mended.skipWhitespace = .ok c t.mended := by
  fun_induction skipWhitespace r with
  | case1 => simp at h
  | case2 r s hs =>
    obtain ⟨rfl, rfl⟩ := EStateM.Result.ok.inj h
    rw [skipWhitespace, next_mended hs]
  | case3 r d s hs hw k dialect hd =>
    obtain ⟨rfl, rfl⟩ := EStateM.Result.ok.inj h
    rw [skipWhitespace, next_mended hs]
    dsimp only
    rw [if_pos (show s.mended.buffer.isWhitespace d.char from hw),
      show s.mended.dialect.terminator? d.char = _ from hd]
    rfl
  | case4 r d s hs hw hd ih =>
    rw [skipWhitespace, next_mended hs]
    dsimp only
    rw [if_pos (show s.mended.buffer.isWhitespace d.char from hw),
      show s.mended.dialect.terminator? d.char = _ from hd]
    exact ih h
  | case5 r d s hs hw =>
    obtain ⟨rfl, rfl⟩ := EStateM.Result.ok.inj h
    rw [skipWhitespace, next_mended hs]
    dsimp only
    rw [if_neg (show ¬ s.mended.buffer.isWhitespace d.char from hw)]

theorem readNaked_mended {c : Scanned} {x : CellEnd × Nat} (h : r.readNaked c = .ok x t) :
    r.mended.readNaked c = .ok x t.mended := by
  fun_induction readNaked c r with
  | case1 c r k dialect ht =>
    obtain ⟨rfl, rfl⟩ := EStateM.Result.ok.inj h
    rw [readNaked, show r.mended.dialect.terminator? c.char = _ from ht]
    rfl
  | case2 => simp at h
  | case3 c r ht s hn =>
    obtain ⟨rfl, rfl⟩ := EStateM.Result.ok.inj h
    rw [readNaked, show r.mended.dialect.terminator? c.char = _ from ht]
    dsimp only
    rw [show (r.mended.append c).next = _ from next_mended hn]
    rfl
  | case4 c r ht d s hn ih =>
    rw [readNaked, show r.mended.dialect.terminator? c.char = _ from ht]
    dsimp only
    rw [show (r.mended.append c).next = _ from next_mended hn]
    exact ih h

theorem readEnclosed_mended {q : Char} {x : CellEnd × Nat} (h : r.readEnclosed q = .ok x t) :
    r.mended.readEnclosed q = .ok x t.mended := by
  fun_induction readEnclosed q r with
  | case1 => simp at h
  | case2 r s hn =>
    obtain ⟨rfl, rfl⟩ := EStateM.Result.ok.inj h
    rw [readEnclosed, next_mended hn]
    rfl
  | case3 r c s hn hc ih =>
    rw [readEnclosed, next_mended hn]
    dsimp only
    rw [if_pos hc]
    exact ih h
  | case4 => simp at h
  | case5 r c s hn hc s' hn' =>
    obtain ⟨rfl, rfl⟩ := EStateM.Result.ok.inj h
    rw [readEnclosed, next_mended hn]
    dsimp only
    rw [if_neg hc, show (s.mended.append c).next = _ from next_mended hn']
    rfl
  | case6 r c s hn hc d s' hn' hd ih =>
    rw [readEnclosed, next_mended hn]
    dsimp only
    rw [if_neg hc, show (s.mended.append c).next = _ from next_mended hn']
    dsimp only
    rw [if_pos hd]
    exact ih h
  | case7 r c s hn hc d s' hn' hd =>
    rw [readEnclosed, next_mended hn]
    dsimp only
    rw [if_neg hc, show (s.mended.append c).next = _ from next_mended hn']
    dsimp only
    rw [if_neg hd]
    exact readNaked_mended h

theorem readFirst_mended {c : Option Scanned} (h : r.readFirst = .ok c t) :
    r.mended.readFirst = .ok c t.mended := by
  rw [readFirst] at h ⊢
  rw [show r.mended.dialect = r.dialect from rfl]
  split at h
  · rename_i htrims
    rw [if_pos htrims]
    exact skipWhitespace_mended h
  · rename_i htrims
    rw [if_neg htrims]
    exact next_mended h

theorem readFrom_mended {c : Scanned} {x : CellEnd × Nat} (h : r.readFrom c = .ok x t) :
    r.mended.readFrom c = .ok x t.mended := by
  rw [readFrom] at h ⊢
  rw [show r.mended.dialect = r.dialect from rfl]
  split at h
  · exact readEnclosed_mended h
  · exact readNaked_mended h

/-- A cell that is read is read alike without failures. -/
theorem readCell_mended {ending : CellEnd} (h : r.readCell = .ok ending t) :
    r.mended.readCell = .ok ending t.mended := by
  rw [readCell] at h ⊢
  cases hf : readFirst { r with buffer := r.buffer.clear, phase := .seeking } with
  | error e s => simp [hf] at h
  | ok c s =>
    rw [hf] at h
    rw [show readFirst { r.mended with buffer := r.mended.buffer.clear, phase := .seeking } = _ from
      readFirst_mended hf]
    cases c with
    | none =>
      obtain ⟨rfl, rfl⟩ := EStateM.Result.ok.inj h
      rfl
    | some c =>
      dsimp only at h ⊢
      cases hr : s.readFrom c with
      | error e u => simp [hr] at h
      | ok x u =>
        rw [hr] at h
        rw [readFrom_mended hr]
        obtain ⟨rfl, rfl⟩ := EStateM.Result.ok.inj h
        rfl

/-! ### Rows -/

theorem present_mended (judge : Judge) (row column : Nat) (mode : LineMode) (r : Reader) :
    r.mended.present judge row column mode =
      ((r.present judge row column mode).1, (r.present judge row column mode).2.mended) := by
  have hheed : ∀ (r : Reader) (mode : LineMode), r.mended.heed mode = (r.heed mode).mended :=
    fun _ mode => by cases mode <;> rfl
  cases mode with
  | handing => exact congrArg (Prod.mk _) (hheed (r.handOver row column) _)
  | skipping | stopped => rfl

/-- Reading adds to what was handed over, and takes nothing away. -/
theorem handed_suffix_present (judge : Judge) (row column : Nat) (mode : LineMode) (r : Reader) :
    r.handed <:+ (r.present judge row column mode).2.handed := by
  cases mode with
  | handing =>
    show r.handed <:+ ((r.handOver row column).heed _).handed
    rw [heed_eq]
    exact List.suffix_cons ..
  | skipping | stopped => exact List.suffix_refl _

theorem handed_suffix_readCells {x : Attempt Reader Bool}
    (h : r.readCells judge row column mode = x) : r.handed <:+ x.state.handed := by
  subst h
  fun_induction readCells judge row column mode r with
  | case1 column mode r e t ht => exact (frame_readCell ht).handed ▸ List.suffix_refl _
  | case2 column mode r ending t ht he => exact (frame_readCell ht).handed ▸ List.suffix_refl _
  | case3 column mode r ending t ht he p hp =>
    rw [← (frame_readCell ht).handed]
    exact handed_suffix_present ..
  | case4 column mode r t p hp ht he ih =>
    rw [← (frame_readCell ht).handed]
    exact (handed_suffix_present ..).trans ih
  | case5 column mode r ending t ht he p hp hs =>
    rw [← (frame_readCell ht).handed, Attempt.state]
    split <;> exact handed_suffix_present ..

theorem handed_suffix_readRow {x : Attempt Reader Bool} (h : r.readRow judge row = x) :
    r.handed <:+ x.state.handed := by
  subst h
  rw [readRow]
  split
  · rename_i hc
    exact handed_suffix_readCells hc
  · rename_i hc
    exact (handed_suffix_readCells hc :)

theorem handed_suffix_readRows {x : Attempt Reader Nat} (h : r.readRows judge row = x) :
    r.handed <:+ x.state.handed := by
  subst h
  fun_induction readRows judge row r with
  | case1 => exact List.suffix_refl _
  | case2 row r hf e t ht => exact handed_suffix_readRow ht
  | case3 row r hf found t ht ih => exact (handed_suffix_readRow ht).trans ih

/-- What succeeds with failures comes to the same without them.  What fails has
handed over what comes first of what is then handed over. -/
def Mends {α : Type} (x y : Attempt Reader α) : Prop :=
  match x with
  | .ok a t => y = .ok a t.mended
  | .error _ t => t.handed <:+ y.state.handed

theorem Mends.handed {α : Type} {x y : Attempt Reader α} (h : Mends x y) :
    x.state.handed <:+ y.state.handed := by
  cases x with
  | ok a t =>
    obtain rfl : y = .ok a t.mended := h
    exact List.suffix_refl _
  | error e t => exact h

theorem readCells_mended (judge : Judge) (row column : Nat) (mode : LineMode) (r : Reader) :
    Mends (r.readCells judge row column mode) (r.mended.readCells judge row column mode) := by
  fun_induction readCells judge row column mode r with
  | case1 column mode r e t ht =>
    -- Nothing of the row from here on has been handed over.
    have hframe : t.handed = r.handed := (frame_readCell ht).handed
    rw [Mends, hframe]
    exact handed_suffix_readCells (r := r.mended) rfl
  | case2 column mode r ending t ht he =>
    rw [Mends, readCells, readCell_mended ht]
    exact if_pos he
  | case3 column mode r ending t ht he p hp =>
    rw [Mends, readCells, readCell_mended ht]
    dsimp only
    rw [if_neg (show ¬ (_ ∧ _ ∧ t.mended.position = r.mended.position) from he), present_mended]
    exact if_pos hp
  | case4 column mode r t p hp ht he ih =>
    have hgoes : r.mended.readCells judge row column mode =
        p.2.mended.readCells judge row (column + 1) p.1 := by
      rw [readCells, readCell_mended ht]
      dsimp only
      rw [if_neg (show ¬ (_ ∧ _ ∧ t.mended.position = r.mended.position) from he), present_mended]
      dsimp only
      rw [if_neg hp, if_pos rfl]
    exact hgoes ▸ ih
  | case5 column mode r ending t ht he p hp hs =>
    rw [Mends, readCells, readCell_mended ht]
    dsimp only
    rw [if_neg (show ¬ (_ ∧ _ ∧ t.mended.position = r.mended.position) from he), present_mended]
    dsimp only
    rw [if_neg hp, if_neg hs]
    split <;> rfl

theorem readRow_mended (judge : Judge) (row : Nat) (r : Reader) :
    Mends (r.readRow judge row) (r.mended.readRow judge row) := by
  have hcells := readCells_mended judge row 0 .handing r
  rw [readRow, readRow]
  cases hc : r.readCells judge row 0 .handing with
  | ok found t =>
    rw [hc] at hcells
    rw [show r.mended.readCells judge row 0 .handing = _ from hcells]
    rfl
  | error e t =>
    rw [hc] at hcells
    have hhanded : t.handed <:+ (r.mended.readCells judge row 0 .handing).state.handed := hcells
    show t.handed <:+ _
    cases hc' : r.mended.readCells judge row 0 .handing with
    | ok | error =>
      rw [hc'] at hhanded
      exact hhanded

/-- Up to its first failure a read goes as it would without failures. -/
theorem readRows_mended (judge : Judge) (row : Nat) (r : Reader) :
    Mends (r.readRows judge row) (r.mended.readRows judge row) := by
  fun_induction readRows judge row r with
  | case1 row r hf =>
    rw [Mends, readRows]
    exact if_pos hf
  | case2 row r hf e t ht =>
    have hrow := readRow_mended judge row r
    rw [ht] at hrow
    have hhanded : t.handed <:+ (r.mended.readRow judge row).state.handed := hrow
    rw [Mends, readRows, if_neg (show ¬ r.mended.phase.isFinal from hf)]
    cases hr : r.mended.readRow judge row with
    | ok found s =>
      rw [hr] at hhanded
      exact hhanded.trans (handed_suffix_readRows rfl)
    | error e' s =>
      rw [hr] at hhanded
      exact hhanded
  | case3 row r hf found t ht ih =>
    have hrow := readRow_mended judge row r
    rw [ht] at hrow
    have hgoes : r.mended.readRows judge row =
        t.mended.readRows judge (if found then row + 1 else row) := by
      rw [readRows, if_neg (show ¬ r.mended.phase.isFinal from hf),
        show r.mended.readRow judge row = _ from hrow]
    exact hgoes ▸ ih

end Reader

end Tabular
