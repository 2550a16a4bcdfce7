/-
What reading characters keeps.

* `Chars.Keeps` — a property of characters under which reading one does not
  fail, and which holds afterwards;
* `Reader.succeeds_readCell`, …, `Reader.succeeds_readRows` — then reading a
  cell, a row or a text does not fail, and the property holds afterwards;
* `Chars.LeftBy` — the character that was read last, before which the property
  held;
* `Reader.leftBy_readCell`, `Reader.leftBy_readRow` — which is the one that ends
  a cell, or a row.

Design notes: a property of characters says nothing of which they are.  Where
that matters it is the last one that does, so there is no need to keep account
of the others.
-/
import Tabular.Proofs.Read.Offsets
import Tabular.Proofs.Read.Alike

namespace Tabular

/-- An attempt succeeds and leaves a state with that property. -/
def Attempt.Succeeds {σ α : Type} (P : σ → Prop) : Attempt σ α → Prop
  | .ok _ s => P s
  | .error _ _ => False

/-- A property of characters under which reading one succeeds, and which holds
afterwards. -/
def Chars.Keeps (P : Chars → Prop) : Prop :=
  ∀ ⦃cs : Chars⦄, P cs → ∀ s folds, (cs.next s folds).Succeeds P

namespace Chars

/-- A character was read last, or that there is none left, and before that the
property held. -/
def LeftBy (P : Chars → Prop) (c : Option Scanned) (cs : Chars) : Prop :=
  ∃ before s folds, P before ∧ before.next s folds = .ok c cs

theorem LeftBy.keeps {P : Chars → Prop} {c : Option Scanned} {cs : Chars}
    (h : cs.LeftBy P c) (hP : Keeps P) : P cs := by
  obtain ⟨before, s, folds, hbefore, hnext⟩ := h
  have hsucceeds := hP hbefore s folds
  rwa [hnext] at hsucceeds

end Chars

/-- What ends a cell: a character that is known as a terminator from then on, or
that there is none left. -/
def CellEnd.By (d : Dialect) : CellEnd → Option Scanned → Prop
  | .inputEnd, c => c = none
  | .terminator k, c => ∃ d' x, c = some x ∧ Dialect.terminator? d' x.char = some (k, d)

namespace Reader

variable {P : Chars → Prop} {r t : Reader} {judge : Judge} {row column : Nat} {mode : LineMode}

theorem succeeds_next (hP : Chars.Keeps P) {x : Attempt Reader (Option Scanned)}
    (hx : r.next = x) (h : P r.chars) : x.Succeeds (P ·.chars) := by
  subst hx
  have hnext := hP h r.strategy r.dialect.folds
  rw [next]
  cases hn : r.chars.next r.strategy r.dialect.folds with
  | ok c cs | error e cs =>
    rw [hn] at hnext
    exact hnext

theorem succeeds_skipWhitespace (hP : Chars.Keeps P) {x : Attempt Reader (Option Scanned)}
    (hx : r.skipWhitespace = x) (h : P r.chars) : x.Succeeds (P ·.chars) := by
  subst hx
  fun_induction skipWhitespace r with
  | case1 r e t ht => exact succeeds_next hP ht h
  | case2 r t ht => exact succeeds_next hP ht h
  | case3 r c t ht hw k dialect hd => exact (succeeds_next hP ht h :)
  | case4 r c t ht hw hd ih => exact ih (succeeds_next hP ht h)
  | case5 r c t ht hw => exact succeeds_next hP ht h

theorem succeeds_readNaked (hP : Chars.Keeps P) {c : Scanned} {x : Attempt Reader (CellEnd × Nat)}
    (hx : r.readNaked c = x) (h : P r.chars) : x.Succeeds (P ·.chars) := by
  subst hx
  fun_induction readNaked c r with
  | case1 c r k dialect ht => exact h
  | case2 c r ht e t hn => exact (succeeds_next hP hn h :)
  | case3 c r ht t hn => exact (succeeds_next hP hn h :)
  | case4 c r ht d t hn ih => exact ih (succeeds_next hP hn h)

theorem succeeds_readEnclosed (hP : Chars.Keeps P) {q : Char} {x : Attempt Reader (CellEnd × Nat)}
    (hx : r.readEnclosed q = x) (h : P r.chars) : x.Succeeds (P ·.chars) := by
  subst hx
  fun_induction readEnclosed q r with
  | case1 r e t hn => exact (succeeds_next hP hn h :)
  | case2 r t hn => exact (succeeds_next hP hn h :)
  | case3 r c t hn hc ih => exact ih (succeeds_next hP hn h)
  | case4 r c t hn hc e t' hn' => exact (succeeds_next hP hn' (succeeds_next hP hn h :) :)
  | case5 r c t hn hc t' hn' => exact (succeeds_next hP hn' (succeeds_next hP hn h :) :)
  | case6 r c t hn hc d t' hn' hd ih => exact ih (succeeds_next hP hn' (succeeds_next hP hn h :))
  | case7 r c t hn hc d t' hn' hd =>
    exact succeeds_readNaked hP rfl (succeeds_next hP hn' (succeeds_next hP hn h :) :)

theorem succeeds_readFirst (hP : Chars.Keeps P) {x : Attempt Reader (Option Scanned)}
    (hx : r.readFirst = x) (h : P r.chars) : x.Succeeds (P ·.chars) := by
  rw [readFirst] at hx
  split at hx
  · exact succeeds_skipWhitespace hP hx h
  · exact succeeds_next hP hx h

theorem succeeds_readFrom (hP : Chars.Keeps P) {c : Scanned} {x : Attempt Reader (CellEnd × Nat)}
    (hx : r.readFrom c = x) (h : P r.chars) : x.Succeeds (P ·.chars) := by
  rw [readFrom] at hx
  split at hx
  · exact succeeds_readEnclosed hP hx h
  · exact succeeds_readNaked hP hx h

theorem succeeds_readCell (hP : Chars.Keeps P) {x : Attempt Reader CellEnd} (hx : r.readCell = x)
    (h : P r.chars) : x.Succeeds (P ·.chars) := by
  subst hx
  rw [readCell]
  split
  · rename_i hf
    exact (succeeds_readFirst hP hf h :)
  · rename_i hf
    exact (succeeds_readFirst hP hf h :)
  · rename_i hf
    have hfirst := succeeds_readFirst hP hf h
    split
    · rename_i hr
      exact (succeeds_readFrom hP hr hfirst :)
    · rename_i hr
      exact (succeeds_readFrom hP hr hfirst :)

theorem chars_present (judge : Judge) (row column : Nat) (mode : LineMode) (r : Reader) :
    (r.present judge row column mode).2.chars = r.chars := by
  cases mode with
  | handing =>
    rw [present]
    cases LineMode.ofVerdict (judge row column r.cell) <;> rfl
  | skipping | stopped => rfl

theorem succeeds_readCells (hP : Chars.Keeps P) {x : Attempt Reader Bool}
    (hx : r.readCells judge row column mode = x) (h : P r.chars) : x.Succeeds (P ·.chars) := by
  subst hx
  fun_induction readCells judge row column mode r with
  | case1 column mode r e t ht => exact (succeeds_readCell hP ht h :)
  | case2 column mode r ending t ht he => exact (succeeds_readCell hP ht h :)
  | case3 column mode r ending t ht he p hp =>
    have hchars : p.2.chars = t.chars := chars_present ..
    rw [Attempt.Succeeds, hchars]
    exact succeeds_readCell hP ht h
  | case4 column mode r t p hp ht he ih =>
    have hchars : p.2.chars = t.chars := chars_present ..
    exact ih (hchars ▸ succeeds_readCell hP ht h)
  | case5 column mode r ending t ht he p hp hs =>
    have hchars : p.2.chars = t.chars := chars_present ..
    have ht : P t.chars := succeeds_readCell hP ht h
    rw [Attempt.Succeeds]
    split <;> exact hchars ▸ ht

theorem succeeds_readRow (hP : Chars.Keeps P) {x : Attempt Reader Bool}
    (hx : r.readRow judge row = x) (h : P r.chars) : x.Succeeds (P ·.chars) := by
  subst hx
  rw [readRow]
  split
  · rename_i hc
    exact (succeeds_readCells hP hc h :)
  · rename_i hc
    exact (succeeds_readCells hP hc h :)

/-- Reading does not fail if no character does. -/
theorem succeeds_readRows (hP : Chars.Keeps P) {x : Attempt Reader Nat}
    (hx : r.readRows judge row = x) (h : P r.chars) : x.Succeeds (P ·.chars) := by
  subst hx
  fun_induction readRows judge row r with
  | case1 => exact h
  | case2 row r hf e t ht => exact (succeeds_readRow hP ht h :)
  | case3 row r hf found t ht ih => exact ih (succeeds_readRow hP ht h)

/-! ### The last character -/

theorem leftBy_next {c : Option Scanned} (hx : r.next = .ok c t) (h : P r.chars) :
    t.chars.LeftBy P c := by
  rw [next] at hx
  split at hx
  · simp at hx
  · rename_i hn
    obtain ⟨rfl, rfl⟩ := EStateM.Result.ok.inj hx
    exact ⟨_, _, _, h, hn⟩

theorem leftBy_skipWhitespace (hP : Chars.Keeps P) {c : Option Scanned}
    (hx : r.skipWhitespace = .ok c t) (h : P r.chars) : t.chars.LeftBy P c := by
  fun_induction skipWhitespace r with
  | case1 => simp at hx
  | case2 r t' ht =>
    obtain ⟨rfl, rfl⟩ := EStateM.Result.ok.inj hx
    exact leftBy_next ht h
  | case3 r c t' ht hw k dialect hd =>
    obtain ⟨rfl, rfl⟩ := EStateM.Result.ok.inj hx
    exact (leftBy_next ht h :)
  | case4 r c t' ht hw hd ih => exact ih hx ((leftBy_next ht h).keeps hP)
  | case5 r c t' ht hw =>
    obtain ⟨rfl, rfl⟩ := EStateM.Result.ok.inj hx
    exact leftBy_next ht h

theorem leftBy_readFirst (hP : Chars.Keeps P) {c : Option Scanned}
    (hx : r.readFirst = .ok c t) (h : P r.chars) : t.chars.LeftBy P c := by
  rw [readFirst] at hx
  split at hx
  · exact leftBy_skipWhitespace hP hx h
  · exact leftBy_next hx h

theorem leftBy_readNaked (hP : Chars.Keeps P) {c : Scanned} {ending : CellEnd} {stop : Nat}
    (hx : r.readNaked c = .ok (ending, stop) t) (h : r.chars.LeftBy P (some c)) :
    ∃ c, t.chars.LeftBy P c ∧ ending.By t.dialect c := by
  fun_induction readNaked c r with
  | case1 c r k dialect ht =>
    obtain ⟨heq, rfl⟩ := EStateM.Result.ok.inj hx
    obtain ⟨rfl, -⟩ := Prod.mk.inj heq
    exact ⟨some c, h, _, c, rfl, ht⟩
  | case2 => simp at hx
  | case3 c r ht t' hn =>
    obtain ⟨heq, rfl⟩ := EStateM.Result.ok.inj hx
    obtain ⟨rfl, -⟩ := Prod.mk.inj heq
    exact ⟨none, (leftBy_next hn (h.keeps hP) :), rfl⟩
  | case4 c r ht d t' hn ih => exact ih hx (leftBy_next hn (h.keeps hP))

theorem leftBy_readEnclosed (hP : Chars.Keeps P) {q : Char} {ending : CellEnd} {stop : Nat}
    (hx : r.readEnclosed q = .ok (ending, stop) t) (h : P r.chars) :
    ∃ c, t.chars.LeftBy P c ∧ ending.By t.dialect c := by
  fun_induction readEnclosed q r with
  | case1 => simp at hx
  | case2 r t' hn =>
    obtain ⟨heq, rfl⟩ := EStateM.Result.ok.inj hx
    obtain ⟨rfl, -⟩ := Prod.mk.inj heq
    exact ⟨none, leftBy_next hn h, rfl⟩
  | case3 r c t' hn hc ih => exact ih hx ((leftBy_next hn h).keeps hP)
  | case4 => simp at hx
  | case5 r c t' hn hc t'' hn' =>
    obtain ⟨heq, rfl⟩ := EStateM.Result.ok.inj hx
    obtain ⟨rfl, -⟩ := Prod.mk.inj heq
    exact ⟨none, (leftBy_next hn' ((leftBy_next hn h).keeps hP) :), rfl⟩
  | case6 r c t' hn hc d t'' hn' hd ih =>
    exact ih hx ((leftBy_next hn' ((leftBy_next hn h).keeps hP)).keeps hP)
  | case7 r c t' hn hc d t'' hn' hd =>
    exact leftBy_readNaked hP hx (leftBy_next hn' ((leftBy_next hn h).keeps hP) :)

/-- The last character of a cell is the one that ends it. -/
theorem leftBy_readCell (hP : Chars.Keeps P) {ending : CellEnd}
    (hx : r.readCell = .ok ending t) (h : P r.chars) :
    ∃ c, t.chars.LeftBy P c ∧ ending.By t.dialect c := by
  rw [readCell] at hx
  split at hx
  · simp at hx
  · rename_i hf
    obtain ⟨rfl, rfl⟩ := EStateM.Result.ok.inj hx
    exact ⟨none, (leftBy_readFirst hP hf h :), rfl⟩
  · rename_i hf
    have hfirst := leftBy_readFirst hP hf h
    split at hx
    · simp at hx
    · rename_i hr
      obtain ⟨rfl, rfl⟩ := EStateM.Result.ok.inj hx
      rw [readFrom] at hr
      split at hr
      · exact (leftBy_readEnclosed hP hr (hfirst.keeps hP) :)
      · exact (leftBy_readNaked hP hr hfirst :)

/-- The last character of a row is a line end, unless a verdict stops the read
or the input ends. -/
theorem leftBy_readCells (hP : Chars.Keeps P) {found : Bool} (hm : mode ≠ .stopped)
    (hx : r.readCells judge row column mode = .ok found t) (h : P r.chars)
    (hp : t.phase.isFinal = false) :
    ∃ c, t.chars.LeftBy P c ∧ (CellEnd.terminator .lineEnd).By t.dialect c := by
  fun_induction readCells judge row column mode r with
  | case1 => simp at hx
  | case2 column mode r ending t' ht he =>
    obtain ⟨-, rfl⟩ := EStateM.Result.ok.inj hx
    rw [readCell_phase ht, he.1] at hp
    exact absurd hp (by simp [CellEnd.phase, Phase.isFinal])
  | case3 column mode r ending t' ht he p hs =>
    obtain ⟨-, rfl⟩ := EStateM.Result.ok.inj hx
    rw [phase_present_stopped hm hs] at hp
    exact absurd hp (by simp [Phase.isFinal])
  | case4 column mode r t' p hs ht he ih =>
    have hchars : p.2.chars = t'.chars := chars_present ..
    exact ih hs hx (hchars ▸ succeeds_readCell hP ht h)
  | case5 column mode r ending t' ht he p hs hend =>
    have hchars : p.2.chars = t'.chars := chars_present ..
    have hdialect : p.2.dialect = t'.dialect := dialect_present ..
    obtain ⟨-, rfl⟩ := EStateM.Result.ok.inj hx
    obtain ⟨c, hleft, hby⟩ := leftBy_readCell hP ht h
    rw [← hchars] at hleft
    rw [← hdialect] at hby
    split at hp
    · exact absurd hp (by simp [Phase.isFinal])
    rename_i hgoes
    rw [if_neg hgoes]
    cases ending with
    | inputEnd =>
      rw [phase_present hs, readCell_phase ht] at hp
      exact absurd hp (by simp [CellEnd.phase, Phase.isFinal])
    | terminator k =>
      cases k with
      | separator => exact absurd rfl hend
      | lineEnd => exact ⟨c, hleft, hby⟩

theorem leftBy_readRow (hP : Chars.Keeps P) {found : Bool}
    (hx : r.readRow judge row = .ok found t) (h : P r.chars) (hp : t.phase.isFinal = false) :
    ∃ c, t.chars.LeftBy P c ∧ (CellEnd.terminator .lineEnd).By t.dialect c := by
  rw [readRow] at hx
  split at hx
  · simp at hx
  · rename_i hc
    obtain ⟨rfl, rfl⟩ := EStateM.Result.ok.inj hx
    exact (leftBy_readCells hP (by decide) hc h hp :)

end Reader

/-! ### Sources that go on delivering -/

theorem Units.Runs.scan {u : Units} {stop : Nat} (h : u.Runs stop) (s : Strategy) :
    ∃ c u', u.scan s = .ok c u' ∧ u'.Runs stop := by
  rw [Units.scan]
  rcases h.readChar s with ⟨u', hread, hy, hp, -⟩ | ⟨c, u', hread, hruns, -⟩
  · rw [hread]
    exact ⟨_, u', rfl, ⟨[], stop, hy, rfl⟩, by simp [hp]⟩
  · rw [hread]
    exact ⟨_, u', rfl, hruns⟩

/-- No character fails of a source that goes on delivering. -/
theorem Chars.keeps_runs (stop : Nat) : Chars.Keeps fun cs => cs.units.Runs stop := by
  rintro ⟨units, ahead⟩ h s folds
  obtain ⟨c, u, htake, hu⟩ :
      ∃ c u, Chars.take s ⟨units, ahead⟩ = .ok c ⟨u, none⟩ ∧ u.Runs stop := by
    rw [take]
    cases ahead with
    | some c => exact ⟨_, units, rfl, h⟩
    | none =>
      obtain ⟨c, u, hscan, hu⟩ := Units.Runs.scan h s
      dsimp only
      rw [hscan]
      exact ⟨c, u, rfl, hu⟩
  rw [next, htake]
  cases c with
  | none => exact hu
  | some c =>
    dsimp only
    split
    · obtain ⟨d, u', hscan, hu'⟩ := hu.scan s
      rw [hscan]
      cases d with
      | none => exact hu'
      | some d =>
        dsimp only
        split <;> exact hu'
    · exact hu


end Tabular
