/-
Readers that are alike read alike.

* `Attempt.Alike` — two attempts come to the same and leave related states;
* `Dialect.LearnsTo` — what may be known of a dialect later on, and
  `learns_readCell`, …, `learns_readRows` — reading only ever learns;
* `Likeness` — what two readers may differ in: their characters, as long as
  the next one is the same, and their dialects, as long as they decide alike;
* `Reader.Alike.readCell`, …, `Reader.Alike.readRows` — they go on alike;
* `Reader.Alike.outcome_eq` — and come to the same.

Design notes: two dialects may decide alike only as long as the first reader
does not learn certain things.  What a reader knows in the end tells what it
can have learned on the way, so each lemma asks only about the end.
-/
import Mathlib.Tactic.Common
import Tabular.Read.Reader

namespace Tabular

/-! ### Attempts -/

namespace Attempt

variable {σ τ α : Type}

/-- What an attempt leaves behind. -/
def state : Attempt σ α → σ
  | .ok _ s => s
  | .error _ s => s

/-- Two attempts come to the same and leave related states. -/
inductive Alike (R : σ → τ → Prop) : Attempt σ α → Attempt τ α → Prop
  | ok {a : α} {s : σ} {t : τ} (h : R s t) : Alike R (.ok a s) (.ok a t)
  | error {e : Error} {s : σ} {t : τ} (h : R s t) : Alike R (.error e s) (.error e t)

variable {R : σ → τ → Prop} {x : Attempt τ α} {s : σ}

theorem Alike.refl (x : Attempt σ α) : Alike Eq x x := by
  cases x with
  | ok a s => exact .ok rfl
  | error e s => exact .error rfl

theorem Alike.of_ok {a : α} (h : Alike R (.ok a s) x) : ∃ t, x = .ok a t ∧ R s t := by
  cases h with
  | ok h => exact ⟨_, rfl, h⟩

theorem Alike.of_error {e : Error} (h : Alike (α := α) R (.error e s) x) :
    ∃ t, x = .error e t ∧ R s t := by
  cases h with
  | error h => exact ⟨_, rfl, h⟩

end Attempt

/-! ### Learning -/

/-- A character that was to be detected may be known later on. -/
def Delimiter.LearnsTo (candidates : List Char) (d e : Delimiter) : Prop :=
  d = e ∨ d = .auto ∧ ∃ c ∈ candidates, e = .char c

namespace Delimiter.LearnsTo

variable {candidates : List Char} {d e f : Delimiter} {c : Char}

theorem trans (h : LearnsTo candidates d e) (h' : LearnsTo candidates e f) :
    LearnsTo candidates d f := by
  rcases h with rfl | ⟨rfl, c, hc, rfl⟩
  · exact h'
  · rcases h' with rfl | ⟨hauto, -⟩
    · exact .inr ⟨rfl, c, hc, rfl⟩
    · exact absurd hauto (by simp)

/-- A character that is accepted is learned. -/
theorem of_accepts (h : d.accepts candidates c) : LearnsTo candidates d (.char c) := by
  cases d with
  | char x => exact .inl (by simpa [accepts] using h)
  | off => simp [accepts] at h
  | auto => exact .inr ⟨rfl, c, by simpa [accepts] using h, rfl⟩

theorem off_iff (h : LearnsTo candidates d e) : e = .off ↔ d = .off := by
  rcases h with rfl | ⟨rfl, x, -, rfl⟩
  · rfl
  · simp

end Delimiter.LearnsTo

/-- What may be known of a dialect later on. -/
structure Dialect.LearnsTo (d e : Dialect) : Prop where
  separator : Delimiter.LearnsTo Delimiter.separatorCandidates d.separator e.separator
  enclosing : Delimiter.LearnsTo Delimiter.enclosingCandidates d.enclosing e.enclosing
  lineEnd : Delimiter.LearnsTo Delimiter.lineEndCandidates d.lineEnd e.lineEnd
  trims : d.trims = e.trims
  keepsCrLf : d.keepsCrLf = e.keepsCrLf

namespace Dialect.LearnsTo

variable {d e f : Dialect} {c : Char}

theorem refl (d : Dialect) : d.LearnsTo d := ⟨.inl rfl, .inl rfl, .inl rfl, rfl, rfl⟩

theorem of_eq (h : d = e) : d.LearnsTo e := h ▸ refl d

theorem trans (h : d.LearnsTo e) (h' : e.LearnsTo f) : d.LearnsTo f :=
  ⟨h.separator.trans h'.separator, h.enclosing.trans h'.enclosing, h.lineEnd.trans h'.lineEnd,
    h.trims.trans h'.trims, h.keepsCrLf.trans h'.keepsCrLf⟩

theorem of_terminator {t : Terminator} (h : d.terminator? c = some (t, e)) : d.LearnsTo e := by
  rw [Dialect.terminator?] at h
  split at h
  · rename_i hc
    obtain ⟨-, rfl⟩ := Prod.mk.inj (Option.some.inj h)
    exact ⟨.of_accepts hc, .inl rfl, .inl rfl, rfl, rfl⟩
  · split at h
    · rename_i hc
      obtain ⟨-, rfl⟩ := Prod.mk.inj (Option.some.inj h)
      exact ⟨.inl rfl, .inl rfl, .of_accepts hc, rfl, rfl⟩
    · exact absurd h (by simp)

theorem of_opens (h : d.opens? c = some e) : d.LearnsTo e := by
  rw [Dialect.opens?] at h
  split at h
  · rename_i hc
    obtain rfl := Option.some.inj h
    exact ⟨.inl rfl, .of_accepts hc, .inl rfl, rfl, rfl⟩
  · exact absurd h (by simp)

end Dialect.LearnsTo

namespace Reader

open Dialect (LearnsTo)

variable {r : Reader} {judge : Judge} {row column : Nat} {mode : LineMode}

/-- Reading a character learns nothing. -/
theorem dialect_next {x : Attempt Reader (Option Scanned)} (h : r.next = x) :
    r.dialect.LearnsTo x.state.dialect := by
  subst h
  rw [next]
  cases r.chars.next r.strategy r.dialect.folds <;> exact .refl _

theorem learns_skipWhitespace {x : Attempt Reader (Option Scanned)} (h : r.skipWhitespace = x) :
    r.dialect.LearnsTo x.state.dialect := by
  subst h
  fun_induction skipWhitespace r with
  | case1 r e t ht => exact dialect_next ht
  | case2 r t ht => exact dialect_next ht
  | case3 r c t ht hw k dialect hd => exact (dialect_next ht).trans (.of_terminator hd)
  | case4 r c t ht hw hd ih => exact (dialect_next ht).trans ih
  | case5 r c t ht hw => exact dialect_next ht

theorem learns_readNaked {c : Scanned} {x : Attempt Reader (CellEnd × Nat)}
    (h : r.readNaked c = x) : r.dialect.LearnsTo x.state.dialect := by
  subst h
  fun_induction readNaked c r with
  | case1 c r t dialect ht => exact .of_terminator ht
  | case2 c r ht e t hn => exact (dialect_next hn :)
  | case3 c r ht t hn => exact (dialect_next hn :)
  | case4 c r ht d t hn ih => exact (dialect_next hn :).trans ih

theorem learns_readEnclosed {q : Char} {x : Attempt Reader (CellEnd × Nat)}
    (h : r.readEnclosed q = x) : r.dialect.LearnsTo x.state.dialect := by
  subst h
  fun_induction readEnclosed q r with
  | case1 r e t hn => exact dialect_next hn
  | case2 r t hn => exact dialect_next hn
  | case3 r c t hn hc ih => exact (dialect_next hn).trans ih
  | case4 r c t hn hc e t' hn' => exact (dialect_next hn).trans (dialect_next hn' :)
  | case5 r c t hn hc t' hn' => exact (dialect_next hn).trans (dialect_next hn' :)
  | case6 r c t hn hc d t' hn' hd ih =>
    exact ((dialect_next hn).trans (dialect_next hn' :)).trans ih
  | case7 r c t hn hc d t' hn' hd =>
    have hnaked := learns_readNaked (c := d) (r := { t' with
      buffer := t'.buffer.retract, phase := .afterEnclosed }) rfl
    exact ((dialect_next hn).trans (dialect_next hn' :)).trans hnaked

theorem learns_readFirst {x : Attempt Reader (Option Scanned)} (h : r.readFirst = x) :
    r.dialect.LearnsTo x.state.dialect := by
  rw [readFirst] at h
  split at h
  · exact learns_skipWhitespace h
  · exact dialect_next h

theorem learns_readFrom {c : Scanned} {x : Attempt Reader (CellEnd × Nat)}
    (h : r.readFrom c = x) : r.dialect.LearnsTo x.state.dialect := by
  rw [readFrom] at h
  split at h
  · rename_i dialect ho
    exact (LearnsTo.of_opens ho).trans (learns_readEnclosed h :)
  · exact (learns_readNaked h :)

theorem learns_readCell {x : Attempt Reader CellEnd} (h : r.readCell = x) :
    r.dialect.LearnsTo x.state.dialect := by
  subst h
  rw [readCell]
  split
  · rename_i hf
    exact (learns_readFirst hf :)
  · rename_i hf
    exact (learns_readFirst hf :)
  · rename_i hf
    split
    · rename_i hr
      exact (learns_readFirst hf :).trans (learns_readFrom hr :)
    · rename_i hr
      exact (learns_readFirst hf :).trans (learns_readFrom hr :)

theorem dialect_present (judge : Judge) (row column : Nat) (mode : LineMode) (r : Reader) :
    (r.present judge row column mode).2.dialect = r.dialect := by
  cases mode with
  | handing =>
    rw [present]
    cases LineMode.ofVerdict (judge row column r.cell) <;> rfl
  | skipping | stopped => rfl

theorem learns_present (judge : Judge) (row column : Nat) (mode : LineMode) (r : Reader) :
    r.dialect.LearnsTo (r.present judge row column mode).2.dialect :=
  .of_eq (dialect_present ..).symm

theorem learns_readCells {x : Attempt Reader Bool} (h : r.readCells judge row column mode = x) :
    r.dialect.LearnsTo x.state.dialect := by
  subst h
  fun_induction readCells judge row column mode r with
  | case1 column mode r e t ht => exact learns_readCell ht
  | case2 column mode r ending t ht he => exact learns_readCell ht
  | case3 column mode r ending t ht he p hp => exact (learns_readCell ht).trans (learns_present ..)
  | case4 column mode r t p hp ht he ih =>
    exact ((learns_readCell ht).trans (learns_present ..)).trans ih
  | case5 column mode r ending t ht he p hp hs =>
    refine ((learns_readCell ht).trans (learns_present judge row column mode t)).trans (.of_eq ?_)
    rw [Attempt.state]
    split <;> rfl

theorem learns_readRow {x : Attempt Reader Bool} (h : r.readRow judge row = x) :
    r.dialect.LearnsTo x.state.dialect := by
  subst h
  rw [readRow]
  split
  · rename_i hc
    exact learns_readCells hc
  · rename_i hc
    exact (learns_readCells hc :)

/-- Reading only ever learns. -/
theorem learns_readRows {x : Attempt Reader Nat} (h : r.readRows judge row = x) :
    r.dialect.LearnsTo x.state.dialect := by
  subst h
  fun_induction readRows judge row r with
  | case1 => exact .refl _
  | case2 row r hf e t ht => exact learns_readRow ht
  | case3 row r hf found t ht ih => exact (learns_readRow ht).trans ih

end Reader

/-! ### Likeness -/

/-- What two readers may differ in. -/
structure Likeness where
  chars : Chars → Chars → Prop
  dialects : Dialect → Dialect → Prop
  /-- What the first reader may have learned. -/
  allows : Dialect → Prop
  /-- Whether they refer to the same bytes in memory. -/
  shares : Prop
  next : ∀ {cs cs'}, chars cs cs' → ∀ s folds,
    Attempt.Alike chars (cs.next s folds) (cs'.next s folds)
  position : ∀ {cs cs'}, chars cs cs' → cs.position = cs'.position
  encoding : ∀ {cs cs'}, chars cs cs' → cs.units.encoding = cs'.units.encoding
  allows_of_learns : ∀ {d e : Dialect}, d.LearnsTo e → allows e → allows d
  folds : ∀ {d d'}, dialects d d' → d.folds = d'.folds
  trims : ∀ {d d'}, dialects d d' → d.trims = d'.trims
  goesOn : ∀ {d d'} {c : Char}, dialects d d' → d.terminator? c = none → d'.terminator? c = none
  terminates : ∀ {d d' e} {c : Char} {t : Terminator}, dialects d d' →
    d.terminator? c = some (t, e) → allows e → ∃ e', d'.terminator? c = some (t, e') ∧ dialects e e'
  isNaked : ∀ {d d'} {c : Char}, dialects d d' → d.opens? c = none → d'.opens? c = none
  opens : ∀ {d d' e} {c : Char}, dialects d d' → d.opens? c = some e → allows e →
    ∃ e', d'.opens? c = some e' ∧ dialects e e'

namespace Reader

/-- Two readers differ only in what they may differ in.  Where they refer to
different bytes, they keep no views. -/
structure Alike (L : Likeness) (r r' : Reader) : Prop where
  chars : L.chars r.chars r'.chars
  dialect : L.dialects r.dialect r'.dialect
  strategy : r.strategy = r'.strategy
  buffer : r.buffer = r'.buffer
  viewed : L.shares → r.viewed = r'.viewed
  unviewed : ¬ L.shares → r.strategy ≠ .view ∧ r.buffer.view = none
  phase : r.phase = r'.phase
  progress : r.progress = r'.progress
  accounted : r.accounted = r'.accounted
  handed : r.handed = r'.handed

namespace Alike

variable {L : Likeness} {r r' : Reader} {judge : Judge} {row column : Nat} {mode : LineMode}

theorem position (h : r.Alike L r') : r.position = r'.position := L.position h.chars

theorem cell (h : r.Alike L r') : r.cell = r'.cell := by
  rw [Reader.cell, Reader.cell, ← h.buffer, Reader.encoding, Reader.encoding, L.encoding h.chars]
  by_cases hs : L.shares
  · rw [h.viewed hs]
  · simp only [CellBuffer.toCell, (h.unviewed hs).2]

theorem next (h : r.Alike L r') : Attempt.Alike (Alike L) r.next r'.next := by
  have hnext : Attempt.Alike L.chars (r.chars.next r.strategy r.dialect.folds)
      (r'.chars.next r'.strategy r'.dialect.folds) := by
    rw [← h.strategy, ← L.folds h.dialect]
    exact L.next h.chars ..
  rw [Reader.next, Reader.next]
  cases hr : r.chars.next r.strategy r.dialect.folds with
  | error e cs =>
    obtain ⟨cs', hr', hcs⟩ := (hr ▸ hnext).of_error
    rw [hr']
    exact .error { h with chars := hcs }
  | ok c cs =>
    obtain ⟨cs', hr', hcs⟩ := (hr ▸ hnext).of_ok
    rw [hr']
    exact .ok { h with chars := hcs }

theorem next_ok (h : r.Alike L r') {c : Option Scanned} {t : Reader} (hn : r.next = .ok c t) :
    ∃ t', r'.next = .ok c t' ∧ t.Alike L t' := (hn ▸ h.next).of_ok

theorem next_error (h : r.Alike L r') {e : Error} {t : Reader} (hn : r.next = .error e t) :
    ∃ t', r'.next = .error e t' ∧ t.Alike L t' := (hn ▸ h.next).of_error

theorem append (h : r.Alike L r') (c : Scanned) : (r.append c).Alike L (r'.append c) := by
  refine { h with buffer := ?_, unviewed := fun hs => ?_ }
  · rw [Reader.append, Reader.append, h.buffer, h.strategy]
  · obtain ⟨hview, hnone⟩ := h.unviewed hs
    refine ⟨hview, ?_⟩
    rw [Reader.append]
    dsimp only
    cases hstrategy : r.strategy with
    | view => exact absurd hstrategy hview
    | raw | decode | discard => exact hnone

theorem skipWhitespace (h : r.Alike L r') (ha : L.allows r.skipWhitespace.state.dialect) :
    Attempt.Alike (Alike L) r.skipWhitespace r'.skipWhitespace := by
  fun_induction Reader.skipWhitespace r generalizing r' with
  | case1 r e t ht =>
    obtain ⟨t', ht', hal⟩ := h.next_error ht
    rw [Reader.skipWhitespace, ht']
    exact .error hal
  | case2 r t ht =>
    obtain ⟨t', ht', hal⟩ := h.next_ok ht
    rw [Reader.skipWhitespace, ht']
    exact .ok hal
  | case3 r c t ht hw k dialect hd =>
    obtain ⟨t', ht', hal⟩ := h.next_ok ht
    obtain ⟨e', he', hd'⟩ := L.terminates hal.dialect hd ha
    rw [Reader.skipWhitespace, ht']
    dsimp only
    rw [if_pos (hal.buffer ▸ hw), he']
    exact .ok { hal with dialect := hd' }
  | case4 r c t ht hw hd ih =>
    obtain ⟨t', ht', hal⟩ := h.next_ok ht
    have hgoes : r'.skipWhitespace = t'.skipWhitespace := by
      rw [Reader.skipWhitespace, ht']
      dsimp only
      rw [if_pos (hal.buffer ▸ hw), L.goesOn hal.dialect hd]
    exact hgoes ▸ ih hal ha
  | case5 r c t ht hw =>
    obtain ⟨t', ht', hal⟩ := h.next_ok ht
    rw [Reader.skipWhitespace, ht']
    dsimp only
    rw [if_neg (hal.buffer ▸ hw)]
    exact .ok hal

theorem readNaked (h : r.Alike L r') {c : Scanned} (ha : L.allows (r.readNaked c).state.dialect) :
    Attempt.Alike (Alike L) (r.readNaked c) (r'.readNaked c) := by
  fun_induction Reader.readNaked c r generalizing r' with
  | case1 c r t dialect ht =>
    obtain ⟨e', he', hd'⟩ := L.terminates h.dialect ht ha
    rw [Reader.readNaked, he']
    exact .ok { h with dialect := hd' }
  | case2 c r ht e t hn =>
    obtain ⟨t', hn', hal⟩ := (h.append c).next_error hn
    rw [Reader.readNaked, L.goesOn h.dialect ht]
    dsimp only
    rw [hn']
    exact .error hal
  | case3 c r ht t hn =>
    obtain ⟨t', hn', hal⟩ := (h.append c).next_ok hn
    rw [Reader.readNaked, L.goesOn h.dialect ht]
    dsimp only
    rw [hn']
    dsimp only
    rw [← hal.position]
    exact .ok hal
  | case4 c r ht d t hn ih =>
    obtain ⟨t', hn', hal⟩ := (h.append c).next_ok hn
    have hgoes : r'.readNaked c = t'.readNaked d := by
      rw [Reader.readNaked, L.goesOn h.dialect ht]
      dsimp only
      rw [hn']
    exact hgoes ▸ ih hal ha

/-- A character is taken back from both. -/
theorem retract (h : r.Alike L r') (phase : Phase) :
    Alike L { r with buffer := r.buffer.retract, phase }
      { r' with buffer := r'.buffer.retract, phase } :=
  { h with buffer := congrArg CellBuffer.retract h.buffer, unviewed := h.unviewed, phase := rfl }

theorem readEnclosed (h : r.Alike L r') {q : Char}
    (ha : L.allows (r.readEnclosed q).state.dialect) :
    Attempt.Alike (Alike L) (r.readEnclosed q) (r'.readEnclosed q) := by
  fun_induction Reader.readEnclosed q r generalizing r' with
  | case1 r e t hn =>
    obtain ⟨t', hn', hal⟩ := h.next_error hn
    rw [Reader.readEnclosed, hn']
    exact .error hal
  | case2 r t hn =>
    obtain ⟨t', hn', hal⟩ := h.next_ok hn
    rw [Reader.readEnclosed, hn']
    dsimp only
    rw [← hal.position]
    exact .ok hal
  | case3 r c t hn hc ih =>
    obtain ⟨t', hn', hal⟩ := h.next_ok hn
    have hgoes : r'.readEnclosed q = (t'.append c).readEnclosed q := by
      rw [Reader.readEnclosed, hn']
      dsimp only
      rw [if_pos hc]
    exact hgoes ▸ ih (hal.append c) ha
  | case4 r c t hn hc e u hu =>
    obtain ⟨t', hn', hal⟩ := h.next_ok hn
    obtain ⟨u', hu', hal'⟩ := (hal.append c).next_error hu
    rw [Reader.readEnclosed, hn']
    dsimp only
    rw [if_neg hc, hu']
    exact .error hal'
  | case5 r c t hn hc u hu =>
    obtain ⟨t', hn', hal⟩ := h.next_ok hn
    obtain ⟨u', hu', hal'⟩ := (hal.append c).next_ok hu
    rw [Reader.readEnclosed, hn']
    dsimp only
    rw [if_neg hc, hu']
    dsimp only
    rw [← hal'.position]
    exact .ok { hal' with
      buffer := congrArg CellBuffer.retract hal'.buffer, unviewed := hal'.unviewed }
  | case6 r c t hn hc d u hu hd ih =>
    obtain ⟨t', hn', hal⟩ := h.next_ok hn
    obtain ⟨u', hu', hal'⟩ := (hal.append c).next_ok hu
    have hgoes : r'.readEnclosed q = u'.readEnclosed q := by
      rw [Reader.readEnclosed, hn']
      dsimp only
      rw [if_neg hc, hu']
      dsimp only
      rw [if_pos hd]
    exact hgoes ▸ ih hal' ha
  | case7 r c t hn hc d u hu hd =>
    obtain ⟨t', hn', hal⟩ := h.next_ok hn
    obtain ⟨u', hu', hal'⟩ := (hal.append c).next_ok hu
    rw [Reader.readEnclosed, hn']
    dsimp only
    rw [if_neg hc, hu']
    dsimp only
    rw [if_neg hd]
    exact (hal'.retract .afterEnclosed).readNaked ha

theorem readFirst (h : r.Alike L r') (ha : L.allows r.readFirst.state.dialect) :
    Attempt.Alike (Alike L) r.readFirst r'.readFirst := by
  rw [Reader.readFirst] at ha ⊢
  rw [Reader.readFirst, ← L.trims h.dialect]
  split
  · rename_i htrims
    rw [if_pos htrims] at ha
    exact h.skipWhitespace ha
  · exact h.next

theorem readFrom (h : r.Alike L r') {c : Scanned} (ha : L.allows (r.readFrom c).state.dialect) :
    Attempt.Alike (Alike L) (r.readFrom c) (r'.readFrom c) := by
  rw [Reader.readFrom] at ha ⊢
  rw [Reader.readFrom]
  cases ho : r.dialect.opens? c.char with
  | none =>
    rw [ho] at ha
    rw [L.isNaked h.dialect ho]
    have hal : Alike L { r with phase := .naked } { r' with phase := .naked } :=
      { h with phase := rfl }
    exact hal.readNaked ha
  | some e =>
    rw [ho] at ha
    let t : Reader :=
      { r with dialect := e, buffer := { r.buffer with enclosed := true }, phase := .enclosed }
    have hallows : L.allows e := L.allows_of_learns (learns_readEnclosed (r := t) rfl) ha
    obtain ⟨e', he', hd⟩ := L.opens h.dialect ho hallows
    rw [he']
    have hal : Alike L t
        { r' with dialect := e', buffer := { r'.buffer with enclosed := true }, phase := .enclosed } :=
      { h with
        dialect := hd
        buffer := congrArg (fun b : CellBuffer => { b with enclosed := true }) h.buffer
        unviewed := h.unviewed
        phase := rfl }
    exact hal.readEnclosed ha

/-- A cell is at its end in both. -/
theorem finished (h : r.Alike L r') (rawBytes : Nat) (phase : Phase) :
    Alike L { r with buffer := { r.buffer with rawBytes }, phase }
      { r' with buffer := { r'.buffer with rawBytes }, phase } :=
  { h with
    buffer := congrArg (fun b : CellBuffer => { b with rawBytes }) h.buffer
    unviewed := h.unviewed
    phase := rfl }

theorem readCell (h : r.Alike L r') (ha : L.allows r.readCell.state.dialect) :
    Attempt.Alike (Alike L) r.readCell r'.readCell := by
  have hcleared : Alike L { r with buffer := r.buffer.clear, phase := .seeking }
      { r' with buffer := r'.buffer.clear, phase := .seeking } :=
    { h with
      buffer := congrArg CellBuffer.clear h.buffer
      unviewed := fun hs => ⟨(h.unviewed hs).1, rfl⟩
      phase := rfl }
  rw [Reader.readCell] at ha ⊢
  rw [Reader.readCell, ← h.position]
  cases hf : Reader.readFirst { r with buffer := r.buffer.clear, phase := .seeking } with
  | error e t =>
    rw [hf] at ha
    obtain ⟨t', hf', hal⟩ := (hf ▸ hcleared.readFirst (hf ▸ ha)).of_error
    rw [hf']
    exact .error hal
  | ok c t =>
    rw [hf] at ha
    cases c with
    | none =>
      obtain ⟨t', hf', hal⟩ := (hf ▸ hcleared.readFirst (hf ▸ ha)).of_ok
      rw [hf']
      dsimp only
      rw [← hal.position]
      exact .ok (hal.finished ..)
    | some c =>
      dsimp only at ha
      have hallows : L.allows (t.readFrom c).state.dialect := by
        cases hr : t.readFrom c <;> rw [hr] at ha <;> exact ha
      have hallows' : L.allows t.dialect := L.allows_of_learns (learns_readFrom rfl) hallows
      obtain ⟨t', hf', hal⟩ := (hf ▸ hcleared.readFirst (by rw [hf]; exact hallows')).of_ok
      have hfrom := hal.readFrom hallows
      rw [hf']
      dsimp only
      cases hr : t.readFrom c with
      | error e u =>
        obtain ⟨u', hr', hal'⟩ := (hr ▸ hfrom).of_error
        rw [hr']
        exact .error hal'
      | ok ending u =>
        obtain ⟨u', hr', hal'⟩ := (hr ▸ hfrom).of_ok
        rw [hr']
        exact .ok (hal'.finished ..)

theorem present (h : r.Alike L r') (judge : Judge) (row column : Nat) (mode : LineMode) :
    (r.present judge row column mode).1 = (r'.present judge row column mode).1 ∧
      Alike L (r.present judge row column mode).2 (r'.present judge row column mode).2 := by
  have hhanded : (r.handOver row column).Alike L (r'.handOver row column) :=
    { h with handed := by rw [handOver, handOver, h.cell, h.handed], unviewed := h.unviewed }
  cases mode with
  | skipping | stopped => exact ⟨rfl, h⟩
  | handing =>
    rw [Reader.present, Reader.present, ← h.cell]
    refine ⟨rfl, ?_⟩
    cases LineMode.ofVerdict (judge row column r.cell) with
    | handing => exact hhanded
    | skipping =>
      exact { hhanded with
        strategy := rfl
        unviewed := fun hs => ⟨by simp [heed], (h.unviewed hs).2⟩ }
    | stopped => exact { hhanded with phase := rfl }

theorem readCells (h : r.Alike L r') (ha : L.allows (r.readCells judge row column mode).state.dialect) :
    Attempt.Alike (Alike L) (r.readCells judge row column mode)
      (r'.readCells judge row column mode) := by
  fun_induction Reader.readCells judge row column mode r generalizing r' with
  | case1 column mode r e t ht =>
    obtain ⟨t', ht', hal⟩ := (ht ▸ h.readCell (ht ▸ ha)).of_error
    rw [Reader.readCells, ht']
    exact .error hal
  | case2 column mode r ending t ht he =>
    obtain ⟨t', ht', hal⟩ := (ht ▸ h.readCell (ht ▸ ha)).of_ok
    rw [Reader.readCells, ht']
    dsimp only
    rw [← hal.position, ← h.position, if_pos he]
    exact .ok hal
  | case3 column mode r ending t ht he p =>
    rename_i hp
    have hallows : L.allows t.dialect := L.allows_of_learns (learns_present ..) ha
    obtain ⟨t', ht', hal⟩ := (ht ▸ h.readCell (by rw [ht]; exact hallows)).of_ok
    obtain ⟨hmode, hpresent⟩ := hal.present judge row column mode
    rw [Reader.readCells, ht']
    dsimp only
    rw [← hal.position, ← h.position, if_neg he, ← hmode, if_pos hp]
    exact .ok hpresent
  | case4 column mode r t p hp ht he =>
    rename_i ih
    have hallows : L.allows t.dialect :=
      L.allows_of_learns ((learns_present ..).trans (learns_readCells rfl)) ha
    obtain ⟨t', ht', hal⟩ := (ht ▸ h.readCell (by rw [ht]; exact hallows)).of_ok
    obtain ⟨hmode, hpresent⟩ := hal.present judge row column mode
    have hgoes : r'.readCells judge row column mode =
        (t'.present judge row column mode).2.readCells judge row (column + 1) p.1 := by
      rw [Reader.readCells, ht']
      dsimp only
      rw [← hal.position, ← h.position, if_neg he, ← hmode, if_neg hp, if_pos rfl]
    exact hgoes ▸ ih hpresent ha
  | case5 column mode r ending t ht he p hp =>
    rename_i hs
    have hallows : L.allows t.dialect := by
      refine L.allows_of_learns (learns_present judge row column mode t) ?_
      rw [Attempt.state] at ha
      split at ha <;> exact ha
    obtain ⟨t', ht', hal⟩ := (ht ▸ h.readCell (by rw [ht]; exact hallows)).of_ok
    obtain ⟨hmode, hpresent⟩ := hal.present judge row column mode
    rw [Reader.readCells, ht']
    dsimp only
    rw [← hal.position, ← h.position, if_neg he, ← hmode, if_neg hp, if_neg hs]
    refine .ok ?_
    split
    · exact { hpresent with phase := rfl }
    · exact hpresent

theorem readRow (h : r.Alike L r') (ha : L.allows (r.readRow judge row).state.dialect) :
    Attempt.Alike (Alike L) (r.readRow judge row) (r'.readRow judge row) := by
  have hallows : L.allows (r.readCells judge row 0 .handing).state.dialect := by
    rw [Reader.readRow] at ha
    cases hc : r.readCells judge row 0 .handing <;> rw [hc] at ha <;> exact ha
  have hcells := h.readCells hallows
  rw [Reader.readRow, Reader.readRow]
  cases hc : r.readCells judge row 0 .handing with
  | error e t =>
    obtain ⟨t', hc', hal⟩ := (hc ▸ hcells).of_error
    rw [hc']
    exact .error hal
  | ok found t =>
    obtain ⟨t', hc', hal⟩ := (hc ▸ hcells).of_ok
    rw [hc']
    refine .ok { hal with strategy := ?_, unviewed := ?_, progress := ?_, accounted := ?_ }
    · exact h.strategy
    · exact fun hs => ⟨(h.unviewed hs).1, (hal.unviewed hs).2⟩
    · show t.progress + (t.position - t.accounted) = t'.progress + (t'.position - t'.accounted)
      rw [hal.progress, hal.accounted, hal.position]
    · exact hal.position

/-- Readers that are alike read alike. -/
theorem readRows (h : r.Alike L r') (ha : L.allows (r.readRows judge row).state.dialect) :
    Attempt.Alike (Alike L) (r.readRows judge row) (r'.readRows judge row) := by
  fun_induction Reader.readRows judge row r generalizing r' with
  | case1 row r hf =>
    rw [Reader.readRows, if_pos (h.phase ▸ hf)]
    exact .ok h
  | case2 row r hf e t ht =>
    obtain ⟨t', ht', hal⟩ := (ht ▸ h.readRow (by rw [ht]; exact ha)).of_error
    rw [Reader.readRows, if_neg (h.phase ▸ hf), ht']
    exact .error hal
  | case3 row r hf found t ht ih =>
    have hallows : L.allows t.dialect := L.allows_of_learns (learns_readRows rfl) ha
    obtain ⟨t', ht', hal⟩ := (ht ▸ h.readRow (by rw [ht]; exact hallows)).of_ok
    have hgoes : r'.readRows judge row =
        t'.readRows judge (if found then row + 1 else row) := by
      rw [Reader.readRows, if_neg (h.phase ▸ hf), ht']
    exact hgoes ▸ ih hal ha

/-- Readers that are alike come to the same, if the same is known to them in
the end. -/
theorem outcome_eq (h : r.Alike L r') (ha : L.allows (r.readRows judge 0).state.dialect)
    (hd : ∀ {d}, L.dialects (r.readRows judge 0).state.dialect d →
      (r.readRows judge 0).state.dialect = d) :
    r.outcome judge = r'.outcome judge := by
  have hrows := h.readRows ha
  rw [outcome, outcome, read, read]
  cases hr : r.readRows judge 0 with
  | error e t =>
    obtain ⟨t', hr', hal⟩ := (hr ▸ hrows).of_error
    rw [hr']
    dsimp only
    rw [hal.handed, hal.progress]
  | ok rows t =>
    obtain ⟨t', hr', hal⟩ := (hr ▸ hrows).of_ok
    rw [hr] at hd
    have hdialect : t.dialect = t'.dialect := hd hal.dialect
    have hencoding : t.encoding = t'.encoding := L.encoding hal.chars
    rw [hr']
    dsimp only
    rw [hal.handed, hal.progress, summary, summary, hal.position, hal.phase, hdialect, hencoding]

end Alike

end Reader

end Tabular
