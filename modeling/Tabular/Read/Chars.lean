/-
The logical characters of an input: what the cells of a text are made of.

`Chars.next` reads one, with the bytes that it stands on.  Where CR LF is
folded, the two are one character, a line feed on the bytes of both; this
takes a look at the character after a carriage return, which is kept for the
next call if it is something else.

`Chars.left` bounds the characters to come, and falls with every one read.
-/
import Tabular.Input.Units
import Tabular.Read.Cell

namespace Tabular

/-- What a unit that is kept as it is looks like. -/
def rawChar (unit : Nat) : Char := (scalar? unit).getD '?'

namespace Units

/-- The next unit as a character of its own. -/
def nextRaw (u : Units) : Attempt Units (Option Char) :=
  match u.next with
  | .error e u => .error e u
  | .ok none u => .ok none u
  | .ok (some unit) u => .ok (some (rawChar unit)) u

/-- The next character as the strategy reads it, `none` at the end of the
input. -/
def readChar : Strategy → Units → Attempt Units (Option Char)
  | .raw => nextRaw
  | .decode | .view | .discard => nextChar

/-- The next character and the bytes that it was read from. -/
def scan (s : Strategy) (u : Units) : Attempt Units (Option Scanned) :=
  match u.readChar s with
  | .error e u' => .error e u'
  | .ok none u' => .ok none u'
  | .ok (some c) u' => .ok (some ⟨c, u.position, u'.position⟩) u'

theorem nextRaw_some {u u' : Units} {c : Char} (h : u.nextRaw = .ok (some c) u') :
    u'.left < u.left := by
  unfold nextRaw at h
  split at h
  · simp at h
  · simp at h
  · rename_i ht
    simp only [EStateM.Result.ok.injEq] at h
    exact h.2 ▸ (next_some ht).1

theorem nextRaw_none {u u' : Units} (h : u.nextRaw = .ok none u') : u'.left ≤ u.left := by
  unfold nextRaw at h
  split at h
  · simp at h
  · rename_i ht
    simp only [EStateM.Result.ok.injEq, true_and] at h
    exact h ▸ next_none ht
  · simp at h

theorem readChar_some {s : Strategy} {u u' : Units} {c : Char}
    (h : u.readChar s = .ok (some c) u') : u'.left < u.left := by
  cases s with
  | raw => exact nextRaw_some h
  | decode | view | discard => exact nextChar_some h

theorem readChar_none {s : Strategy} {u u' : Units} (h : u.readChar s = .ok none u') :
    u'.left ≤ u.left := by
  cases s with
  | raw => exact nextRaw_none h
  | decode | view | discard => exact nextChar_none h

theorem scan_some {s : Strategy} {u u' : Units} {c : Scanned} (h : u.scan s = .ok (some c) u') :
    u'.left < u.left := by
  unfold scan at h
  split at h
  · simp at h
  · simp at h
  · rename_i ht
    simp only [EStateM.Result.ok.injEq] at h
    exact h.2 ▸ readChar_some ht

theorem scan_none {s : Strategy} {u u' : Units} (h : u.scan s = .ok none u') :
    u'.left ≤ u.left := by
  unfold scan at h
  split at h
  · simp at h
  · rename_i ht
    simp only [EStateM.Result.ok.injEq, true_and] at h
    exact h ▸ readChar_none ht
  · simp at h

end Units

/-- An input as characters, with one that may have been read ahead. -/
structure Chars where
  units : Units
  ahead : Option Scanned
  deriving DecidableEq

namespace Chars

/-- The byte offset of the next character. -/
def position (cs : Chars) : Nat :=
  match cs.ahead with
  | some c => c.span.start
  | none => cs.units.position

/-- The character read ahead, or else the next one of the input. -/
def take (s : Strategy) (cs : Chars) : Attempt Chars (Option Scanned) :=
  match cs.ahead with
  | some c => .ok (some c) { cs with ahead := none }
  | none =>
    match cs.units.scan s with
    | .error e units => .error e { cs with units }
    | .ok c units => .ok c { cs with units }

/-- The next logical character, `none` at the end of the input. -/
def next (s : Strategy) (folds : Bool) (cs : Chars) : Attempt Chars (Option Scanned) :=
  match cs.take s with
  | .error e cs => .error e cs
  | .ok none cs => .ok none cs
  | .ok (some c) cs =>
    if c.char = '\r' ∧ folds then
      match cs.units.scan s with
      | .error e units => .error e { cs with units }
      | .ok none units => .ok (some c) { cs with units }
      | .ok (some d) units =>
        -- The bytes of both make one character; anything else waits its turn.
        if d.char = '\n' then .ok (some ⟨'\n', c.span.start, d.span.stop⟩) { cs with units }
        else .ok (some c) ⟨units, some d⟩
    else .ok (some c) cs

/-- A bound on the characters still to come. -/
def left (cs : Chars) : Nat := cs.units.left + (if cs.ahead.isSome then 1 else 0)

theorem take_some {s : Strategy} {cs cs' : Chars} {c : Scanned}
    (h : cs.take s = .ok (some c) cs') : cs'.left < cs.left ∧ cs'.ahead = none := by
  unfold take at h
  split at h
  · rename_i d hd
    simp only [EStateM.Result.ok.injEq] at h
    obtain ⟨-, rfl⟩ := h
    simp [left, hd]
  · rename_i hd
    split at h
    · simp at h
    · rename_i hs
      simp only [EStateM.Result.ok.injEq] at h
      obtain ⟨rfl, rfl⟩ := h
      simpa [left, hd] using Units.scan_some hs

theorem take_none {s : Strategy} {cs cs' : Chars} (h : cs.take s = .ok none cs') :
    cs'.left ≤ cs.left := by
  unfold take at h
  split at h
  · simp at h
  · rename_i hd
    split at h
    · simp at h
    · rename_i hs
      simp only [EStateM.Result.ok.injEq] at h
      obtain ⟨rfl, rfl⟩ := h
      simpa [left, hd] using Units.scan_none hs

theorem next_some {s : Strategy} {folds : Bool} {cs cs' : Chars} {c : Scanned}
    (h : cs.next s folds = .ok (some c) cs') : cs'.left < cs.left := by
  unfold next at h
  split at h
  · simp at h
  · simp at h
  · rename_i d t ht
    have hlt := take_some ht
    split at h
    · split at h
      · simp at h
      · rename_i hs
        simp only [EStateM.Result.ok.injEq] at h
        obtain ⟨-, rfl⟩ := h
        have := Units.scan_none hs
        simp only [left, hlt.2] at hlt ⊢
        omega
      · rename_i hs
        have := Units.scan_some hs
        split at h
        all_goals
          simp only [EStateM.Result.ok.injEq] at h
          obtain ⟨-, rfl⟩ := h
          simp only [left, hlt.2, Option.isSome_some, if_true] at hlt ⊢
          simp at hlt ⊢
          omega
    · simp only [EStateM.Result.ok.injEq] at h
      obtain ⟨-, rfl⟩ := h
      exact hlt.1

theorem next_none {s : Strategy} {folds : Bool} {cs cs' : Chars}
    (h : cs.next s folds = .ok none cs') : cs'.left ≤ cs.left := by
  unfold next at h
  split at h
  · simp at h
  · rename_i ht
    simp only [EStateM.Result.ok.injEq, true_and] at h
    exact h ▸ take_none ht
  · split at h
    · split at h
      · simp at h
      · simp at h
      · split at h <;> simp at h
    · simp at h

end Chars

end Tabular
