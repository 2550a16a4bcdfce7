/-
The code units of a byte source, and the characters they decode to.

* `Units.next`, `Units.unread` — one unit at a time, of which one can be put
  back;
* `Units.nextChar` — one decoded character;
* `Units.decodeAll` — the text of a source to its end.

A unit of several bytes that the end of the input cuts short reads as U+FFFD.
`Units.left` bounds the units and characters still to come; every character
read makes it smaller, which is why loops over the input end.
-/
import Tabular.Input.Source
import Tabular.Text.Decode

namespace Tabular

/-- The bytes of a source grouped into code units. -/
structure Units where
  source : Source
  encoding : Encoding
  /-- A unit that was read and put back. -/
  pushed : Option Nat
  deriving DecidableEq

namespace Source

/-- The next `n` bytes, fewer at the end of the input. -/
def nextBytes : Nat → Source → Attempt Source (List UInt8)
  | 0, s => .ok [] s
  | n + 1, s =>
    match s.next with
    | .error e s => .error e s
    | .ok none s => .ok [] s
    | .ok (some b) s =>
      match nextBytes n s with
      | .error e s => .error e s
      | .ok bs s => .ok (b :: bs) s

/-- The bytes read were the first of the rest. -/
theorem nextBytes_ok {n : Nat} {s s' : Source} {bs : List UInt8}
    (h : nextBytes n s = .ok bs s') : s.rest = bs ++ s'.rest := by
  induction n generalizing s bs with
  | zero =>
    simp only [nextBytes, EStateM.Result.ok.injEq] at h
    obtain ⟨rfl, rfl⟩ := h
    rfl
  | succ n ih =>
    simp only [nextBytes] at h
    split at h
    · simp at h
    · rename_i t ht
      simp only [EStateM.Result.ok.injEq] at h
      obtain ⟨rfl, rfl⟩ := h
      simpa using (next_none ht).1.symm
    · rename_i b t ht
      split at h
      · simp at h
      · rename_i cs t' hcs
        simp only [EStateM.Result.ok.injEq] at h
        obtain ⟨rfl, rfl⟩ := h
        simp [(next_some ht).1, ih hcs]

end Source

namespace Units

/-- The units of a source. -/
def ofSource (source : Source) (encoding : Encoding) : Units := ⟨source, encoding, none⟩

/-- The byte offset of the next unit: what has been read less a unit that was
put back, which is taken to have its full width. -/
def position (u : Units) : Nat :=
  u.source.position - (if u.pushed.isSome then u.encoding.unitWidth else 0)

/-- Puts a unit back, to be the next one. -/
def unread (unit : Nat) (u : Units) : Units := { u with pushed := some unit }

/-- The next unit, `none` at the end of the input. -/
def next (u : Units) : Attempt Units (Option Nat) :=
  match u.pushed with
  | some unit => .ok (some unit) { u with pushed := none }
  | none =>
    match u.source.nextBytes u.encoding.unitWidth with
    | .error e source => .error e { u with source }
    | .ok [] source => .ok none { u with source }
    -- A unit that the end of the input cuts short stands for no character.
    | .ok bytes source =>
      .ok (some (if bytes.length < u.encoding.unitWidth then replacement.toNat
        else u.encoding.assemble bytes)) { u with source }

/-- A bound on the units still to come. -/
def left (u : Units) : Nat := u.source.rest.length + (if u.pushed.isSome then 1 else 0)

theorem next_some {u u' : Units} {unit : Nat} (h : u.next = .ok (some unit) u') :
    u'.left < u.left ∧ u'.pushed = none := by
  unfold next at h
  split at h
  · rename_i x hx
    simp only [EStateM.Result.ok.injEq] at h
    obtain ⟨-, rfl⟩ := h
    simp [left, hx]
  · rename_i hp
    split at h <;> simp only [EStateM.Result.ok.injEq, reduceCtorEq, false_and] at h
    rename_i bytes source hne hb
    obtain ⟨-, rfl⟩ := h
    have := Source.nextBytes_ok hb
    cases bytes with
    | nil => exact absurd rfl hne
    | cons b bs =>
      refine ⟨?_, hp⟩
      simp only [left, hp, this, List.length_append, List.length_cons]
      omega

theorem next_none {u u' : Units} (h : u.next = .ok none u') : u'.left ≤ u.left := by
  unfold next at h
  split at h
  · simp at h
  · rename_i hp
    split at h <;> simp at h
    rename_i source hb
    subst h
    have := Source.nextBytes_ok hb
    simp [left, hp, this]

theorem left_unread (unit : Nat) {u : Units} (h : u.pushed = none) :
    (u.unread unit).left = u.left + 1 := by
  simp [left, unread, h]

/-- Reads the units that complete a character. -/
def finish (v : Unfinished) (u : Units) : Attempt Units Char :=
  match u.next with
  | .error e u => .error e u
  | .ok none u => .ok replacement u
  | .ok (some unit) u =>
    match _h : v.feed unit with
    -- The unit that breaks the character begins the next one.
    | none => .ok replacement (u.unread unit)
    | some (.char c) => .ok c u
    | some (.more v') => finish v' u
termination_by v.missing
decreasing_by exact Unfinished.missing_lt_of_feed _h

/-- The next character, `none` at the end of the input. -/
def nextChar (u : Units) : Attempt Units (Option Char) :=
  match u.next with
  | .error e u => .error e u
  | .ok none u => .ok none u
  | .ok (some unit) u =>
    match Decode.start u.encoding unit with
    | .char c => .ok (some c) u
    | .more v =>
      match finish v u with
      | .error e u => .error e u
      | .ok c u => .ok (some c) u

theorem finish_ok {v : Unfinished} {u u' : Units} {c : Char} (h : finish v u = .ok c u') :
    u'.left ≤ u.left := by
  fun_induction finish v u with
  | case1 => simp at h
  | case2 v u t ht =>
    simp only [EStateM.Result.ok.injEq] at h
    obtain ⟨-, rfl⟩ := h
    exact next_none ht
  | case3 v u unit t ht =>
    simp only [EStateM.Result.ok.injEq] at h
    obtain ⟨-, rfl⟩ := h
    have := next_some ht
    rw [left_unread unit this.2]
    omega
  | case4 v u unit t ht =>
    simp only [EStateM.Result.ok.injEq] at h
    obtain ⟨-, rfl⟩ := h
    exact Nat.le_of_lt (next_some ht).1
  | case5 v u unit t ht v' hv ih => exact Nat.le_trans (ih h) (Nat.le_of_lt (next_some ht).1)

theorem nextChar_some {u u' : Units} {c : Char} (h : u.nextChar = .ok (some c) u') :
    u'.left < u.left := by
  unfold nextChar at h
  split at h
  · simp at h
  · simp at h
  · rename_i unit t ht
    split at h
    · simp only [EStateM.Result.ok.injEq] at h
      obtain ⟨-, rfl⟩ := h
      exact (next_some ht).1
    · split at h
      · simp at h
      · rename_i c' t' hf
        simp only [EStateM.Result.ok.injEq] at h
        obtain ⟨-, rfl⟩ := h
        exact Nat.lt_of_le_of_lt (finish_ok hf) (next_some ht).1

theorem nextChar_none {u u' : Units} (h : u.nextChar = .ok none u') : u'.left ≤ u.left := by
  unfold nextChar at h
  split at h
  · simp at h
  · rename_i t ht
    simp only [EStateM.Result.ok.injEq, true_and] at h
    exact h ▸ next_none ht
  · split at h
    · simp at h
    · split at h <;> simp at h

/-- The characters to the end of the input. -/
def decodeAll (u : Units) : Attempt Units (List Char) :=
  match h : u.nextChar with
  | .error e u => .error e u
  | .ok none u => .ok [] u
  | .ok (some c) u' =>
    have := nextChar_some h
    match decodeAll u' with
    | .error e u => .error e u
    | .ok cs u => .ok (c :: cs) u
termination_by u.left

end Units

end Tabular
