/-
Where a reader stands in the bytes that it reads.

* `Units.Reached.readChar` — a reader of units reads a character, or there is
  none left;
* `Chars.Stands` — characters of which so many units of the bytes have been
  read;
* `Chars.Stands.position` — which is where they are reported to be, if no unit
  has been put back or the bytes do not break off;
* `Chars.keeps_stands` — reading goes on from there;
* `Chars.LeftBy.settled` — and after any character but U+FFFD no unit has been
  put back.

Design notes: a strategy may change within a row, and with it what characters
there are.  Units are the same whatever the strategy, so it is units that tell
where a reader stands.
-/
import Tabular.Proofs.Read.Keeps
import Tabular.Proofs.Read.Slip

namespace Tabular

namespace Units.Reached

variable {u : Units} {e : Encoding} {start n : Nat} {bytes : List UInt8}

theorem position (h : u.Reached e start bytes n) (hp : u.pushed = none ∨ ¬ e.BreaksOff bytes) :
    u.position = e.unitOffset start bytes n := by
  by_cases hpushed : u.pushed.isSome
  · have hbreak := hp.resolve_left fun hnone => by simp [hnone] at hpushed
    rcases h.position_of_some hpushed with ⟨hposition, -⟩ | ⟨-, hbreaks, -⟩
    · exact hposition
    · exact absurd hbreaks hbreak
  · exact h.position_of_none (Option.not_isSome_iff_eq_none.mp hpushed)

/-- A character is read, or there is none left.  Only U+FFFD puts a unit back. -/
theorem readChar (h : u.Reached e start bytes n) (s : Strategy) :
    ∃ u' m, n ≤ m ∧ u'.Reached e start bytes m ∧
      (u.readChar s = .ok none u' ∧ u'.pushed = none ∨ ∃ c, u.readChar s = .ok (some c) u' ∧
        s.first e ((e.unitsOf bytes).drop n) = some (c, (e.unitsOf bytes).drop m) ∧
        (c ≠ replacement → u'.pushed = none)) := by
  cases hunits : (e.unitsOf bytes).drop n with
  | nil =>
    obtain ⟨u', hnext, h', hp⟩ := h.next_nil hunits
    refine ⟨u', n, Nat.le_refl n, h', .inl ⟨?_, hp⟩⟩
    cases s with
    | raw =>
      show u.nextRaw = _
      rw [nextRaw, hnext]
    | decode | view | discard =>
      show u.nextChar = _
      rw [nextChar, hnext]
  | cons unit units =>
    cases s with
    | raw =>
      obtain ⟨u', hnext, h', hp, rfl⟩ := h.next hunits
      refine ⟨u', n + 1, Nat.le_succ n, h', .inr ⟨rawChar unit, ?_, rfl, fun _ => hp⟩⟩
      show u.nextRaw = _
      rw [nextRaw, hnext]
    | decode | view | discard =>
      obtain ⟨c, rest, hf⟩ := Decode.exists_first e unit units
      obtain ⟨u', m, hle, hnext, h', rfl⟩ := h.nextChar_of_first (hunits ▸ hf)
      refine ⟨u', m, hle, h'.toReached, .inr ⟨c, hnext, hf, fun hc => ?_⟩⟩
      exact Option.not_isSome_iff_eq_none.mp fun hp => hc (char_of_nextChar hnext hp)

theorem scan (h : u.Reached e start bytes n) (s : Strategy) :
    ∃ u' m, n ≤ m ∧ u'.Reached e start bytes m ∧
      (u.scan s = .ok none u' ∧ u'.pushed = none ∨ ∃ c, u.scan s = .ok (some c) u' ∧
        c.span.start = u.position ∧
        s.first e ((e.unitsOf bytes).drop n) = some (c.char, (e.unitsOf bytes).drop m) ∧
        (c.char ≠ replacement → u'.pushed = none)) := by
  obtain ⟨u', m, hle, h', hread⟩ := h.readChar s
  refine ⟨u', m, hle, h', ?_⟩
  rw [Units.scan]
  rcases hread with ⟨hread, hp⟩ | ⟨c, hread, hf, hp⟩
  · rw [hread]
    exact .inl ⟨rfl, hp⟩
  · rw [hread]
    exact .inr ⟨_, rfl, rfl, hf, hp⟩

end Units.Reached

namespace Chars

/-- The units still to come, with those of a character that has been read
ahead, are `units`. -/
def Awaits (cs : Chars) (units : List Nat) : Prop :=
  let more := cs.units.toCome cs.units.source.rest
  match cs.ahead with
  | none => more = units
  | some c => ∃ s : Strategy, s.first cs.units.encoding units = some (c.char, more)

/-- The first `n` units of the bytes from offset `start` on have been read, not
counting those of a character that has been read ahead. -/
def Stands (cs : Chars) (e : Encoding) (start : Nat) (bytes : List UInt8) (n : Nat) : Prop :=
  match cs.ahead with
  | none => cs.units.Reached e start bytes n
  | some c => ∃ s m, n ≤ m ∧ cs.units.Reached e start bytes m ∧
      (c.char ≠ replacement → cs.units.pushed = none) ∧
      c.span.start = e.unitOffset start bytes n ∧
      Strategy.first s e ((e.unitsOf bytes).drop n) = some (c.char, (e.unitsOf bytes).drop m)

/-- No unit has been put back before the next character. -/
def Settled (cs : Chars) : Prop := cs.ahead.isSome ∨ cs.units.pushed = none

namespace Stands

variable {cs cs' : Chars} {e : Encoding} {start n : Nat} {bytes : List UInt8} {c : Option Scanned}

theorem position (h : cs.Stands e start bytes n) (hs : cs.Settled ∨ ¬ e.BreaksOff bytes) :
    cs.position = e.unitOffset start bytes n := by
  obtain ⟨units, ahead⟩ := cs
  cases ahead with
  | none =>
    exact Units.Reached.position h (hs.imp_left fun hsettled => hsettled.resolve_left (by simp))
  | some c =>
    obtain ⟨-, -, -, -, -, hstart, -⟩ := h
    exact hstart

theorem awaits (h : cs.Stands e start bytes n) : cs.Awaits ((e.unitsOf bytes).drop n) := by
  obtain ⟨units, ahead⟩ := cs
  cases ahead with
  | none => exact (Units.Reached.brings h).toCome
  | some c =>
    obtain ⟨s, m, -, hu, -, -, hf⟩ := h
    refine ⟨s, ?_⟩
    rw [hu.brings.toCome, hu.encoding]
    exact hf

theorem take (h : cs.Stands e start bytes n) (s : Strategy) :
    ∃ c u m, cs.take s = .ok c ⟨u, none⟩ ∧ n ≤ m ∧ u.Reached e start bytes m ∧
      ((∀ x ∈ c, x.char ≠ replacement) → u.pushed = none) := by
  obtain ⟨units, ahead⟩ := cs
  rw [Chars.take]
  cases ahead with
  | some c =>
    obtain ⟨-, m, hle, hu, hp, -⟩ := h
    exact ⟨_, units, m, rfl, hle, hu, fun hc => hp (hc c rfl)⟩
  | none =>
    obtain ⟨u, m, hle, hu, hscan⟩ := Units.Reached.scan h s
    dsimp only
    rcases hscan with ⟨hscan, hp⟩ | ⟨c, hscan, -, -, hp⟩
    · rw [hscan]
      exact ⟨_, u, m, rfl, hle, hu, fun _ => hp⟩
    · rw [hscan]
      exact ⟨_, u, m, rfl, hle, hu, fun hc => hp (hc c rfl)⟩

/-- Reading goes on from where it stands. -/
theorem next (h : cs.Stands e start bytes n) (s : Strategy) (folds : Bool) :
    ∃ c cs' m, cs.next s folds = .ok c cs' ∧ n ≤ m ∧ cs'.Stands e start bytes m ∧
      ((∀ x ∈ c, x.char ≠ replacement) → cs'.Settled) := by
  obtain ⟨c, u, m, htake, hle, hu, hp⟩ := h.take s
  rw [Chars.next, htake]
  cases c with
  | none => exact ⟨none, _, m, rfl, hle, hu, fun hc => .inr (hp hc)⟩
  | some c =>
    dsimp only
    split
    · rename_i hcr
      -- A carriage return puts nothing back.
      have hcr : u.pushed = none := by
        refine hp fun x hx => ?_
        rw [← Option.mem_some_iff.mp hx, hcr.1]
        decide
      obtain ⟨u', m', hle', hu', hscan⟩ := hu.scan s
      rcases hscan with ⟨hscan, hp'⟩ | ⟨d, hscan, hstart, hf, hp'⟩
      · rw [hscan]
        exact ⟨some c, _, m', rfl, Nat.le_trans hle hle', hu', fun _ => .inr hp'⟩
      · rw [hscan]
        dsimp only
        split
        · rename_i hlf
          refine ⟨_, _, m', rfl, Nat.le_trans hle hle', hu', fun _ => .inr (hp' ?_)⟩
          rw [hlf]
          decide
        · -- The character stays ahead, and begins where the one before it ends.
          rw [hu.position (.inl hcr)] at hstart
          exact ⟨_, _, m, rfl, hle, ⟨s, m', hle', hu', hp', hstart, hf⟩, fun _ => .inl rfl⟩
    · exact ⟨some c, _, m, rfl, hle, hu, fun hc => .inr (hp hc)⟩

end Stands

/-- What has been read is never taken back. -/
theorem keeps_stands {e : Encoding} {start n : Nat} {bytes : List UInt8} :
    Keeps fun cs => ∃ m, n ≤ m ∧ cs.Stands e start bytes m := by
  rintro cs ⟨m, hm, h⟩ s folds
  obtain ⟨c, cs', m', hnext, hle, h', -⟩ := h.next s folds
  rw [hnext]
  exact ⟨m', Nat.le_trans hm hle, h'⟩

/-- After any character but U+FFFD no unit has been put back. -/
theorem LeftBy.settled {e : Encoding} {start n : Nat} {bytes : List UInt8} {cs : Chars}
    {c : Scanned} (h : cs.LeftBy (fun cs => ∃ m, n ≤ m ∧ cs.Stands e start bytes m) (some c))
    (hc : c.char ≠ replacement) : cs.Settled := by
  obtain ⟨before, s, folds, ⟨m, -, hstands⟩, hleft⟩ := h
  obtain ⟨c', cs', m', hnext, -, -, hsettled⟩ := hstands.next s folds
  obtain ⟨rfl, rfl⟩ := EStateM.Result.ok.inj (hnext.symm.trans hleft)
  exact hsettled fun x hx => Option.mem_some_iff.mp hx ▸ hc

end Chars

end Tabular
