/-
Decoding a list of code units one character at a time.

* `Decode.first` — the first character of a list of units, and the units
  after it;
* `Decode.decode_of_first` — decoding a list is taking its first character
  over and over;
* `Decode.FreshIn`, `Decode.first_append` — what follows a list does not change
  its characters, if it begins with a unit that no character of the encoding
  can go on with;
* `Decode.decode_append` — so a text can be cut before such a unit.

Design notes: `Encoding.decode` passes an unfinished character from unit to
unit, and a reader of bytes takes the units of a character in one go.  `first`
stands between the two: it goes like the reader, but over a list.
-/
import Tabular.Text.Decode

namespace Tabular.Decode

/-- The character that `v` becomes when `units` follow, and the units that do
not belong to it. -/
def finish : Unfinished → List Nat → Char × List Nat
  | _, [] => (replacement, [])
  | v, unit :: units =>
    match v.feed unit with
    | none => (replacement, unit :: units)
    | some (.char c) => (c, units)
    | some (.more v) => finish v units

/-- The first character of `units`, and the units after it. -/
def first (e : Encoding) : List Nat → Option (Char × List Nat)
  | [] => none
  | unit :: units =>
    match start e unit with
    | .char c => some (c, units)
    | .more v => some (finish v units)

@[simp] theorem first_nil (e : Encoding) : first e [] = none := rfl

theorem length_finish_le (v : Unfinished) (units : List Nat) :
    (finish v units).2.length ≤ units.length := by
  induction units generalizing v with
  | nil => exact Nat.le_refl _
  | cons unit units ih =>
    rw [finish]
    cases v.feed unit with
    | none => exact Nat.le_refl _
    | some d =>
      cases d with
      | char c => exact Nat.le_succ _
      | more v => exact Nat.le_trans (ih v) (Nat.le_succ _)

/-- Every character takes a unit. -/
theorem length_lt_of_first {e : Encoding} {units rest : List Nat} {c : Char}
    (h : first e units = some (c, rest)) : rest.length < units.length := by
  cases units with
  | nil => simp at h
  | cons unit units =>
    rw [first] at h
    split at h
    · simp only [Option.some.injEq, Prod.mk.injEq] at h
      rw [← h.2]
      exact Nat.lt_succ_self _
    · rename_i v _
      have hle := length_finish_le v units
      rw [Option.some.inj h] at hle
      exact Nat.lt_succ_of_le hle

theorem exists_first (e : Encoding) (unit : Nat) (units : List Nat) :
    ∃ c rest, first e (unit :: units) = some (c, rest) := by
  rw [first]
  cases start e unit with
  | char c => exact ⟨c, units, rfl⟩
  | more v => exact ⟨_, _, rfl⟩

/-! ### Decoding is taking first characters -/

theorem decodeFrom_char {e : Encoding} {unit : Nat} {units : List Nat} {c : Char}
    (h : start e unit = .char c) :
    decodeFrom e none (unit :: units) = c :: decodeFrom e none units := by
  rw [decodeFrom, advance, h]
  rfl

theorem decodeFrom_more {e : Encoding} {unit : Nat} {units : List Nat} {v : Unfinished}
    (h : start e unit = .more v) :
    decodeFrom e none (unit :: units) = decodeFrom e (some v) units := by
  rw [decodeFrom, advance, h]
  rfl

/-- What is unfinished becomes a character, and decoding goes on after it. -/
theorem decodeFrom_some (e : Encoding) (v : Unfinished) (units : List Nat) :
    decodeFrom e (some v) units =
      (finish v units).1 :: decodeFrom e none (finish v units).2 := by
  induction units generalizing v with
  | nil => rfl
  | cons unit units ih =>
    rw [finish]
    cases h : v.feed unit with
    | none =>
      -- The unit that breaks the character is decoded again, from nothing.
      simp only [decodeFrom, advance, h, List.cons_append]
    | some d =>
      cases d with
      | char c => simp [decodeFrom, advance, h, emit]
      | more v' => simpa [decodeFrom, advance, h, emit] using ih v'

@[simp] theorem decode_nil (e : Encoding) : e.decode [] = [] := rfl

theorem decode_of_first {e : Encoding} {units rest : List Nat} {c : Char}
    (h : first e units = some (c, rest)) : e.decode units = c :: e.decode rest := by
  cases units with
  | nil => simp at h
  | cons unit units =>
    rw [first] at h
    split at h
    · rename_i hs
      simp only [Option.some.injEq, Prod.mk.injEq] at h
      obtain ⟨rfl, rfl⟩ := h
      exact decodeFrom_char hs
    · rename_i hs
      rw [Option.some.injEq, Prod.ext_iff] at h
      obtain ⟨rfl, rfl⟩ := h
      rw [Encoding.decode, decodeFrom_more hs]
      exact decodeFrom_some ..

/-! ### What follows a text -/

/-- What can be unfinished in an encoding. -/
inductive ArisesIn (e : Encoding) : Unfinished → Prop
  | start {unit : Nat} {v : Unfinished} (h : start e unit = .more v) : ArisesIn e v
  | feed {unit : Nat} {v v' : Unfinished} (hv : ArisesIn e v)
      (h : v.feed unit = some (.more v')) : ArisesIn e v'

/-- No character of the encoding can go on with the first of the units, if
there are any. -/
def FreshIn (e : Encoding) (units : List Nat) : Prop :=
  ∀ unit ∈ units.head?, ∀ v : Unfinished, ArisesIn e v → v.feed unit = none

/-- No character can go on with the first of the units, if there are any. -/
def Fresh (units : List Nat) : Prop :=
  ∀ unit ∈ units.head?, ∀ v : Unfinished, v.feed unit = none

theorem Fresh.freshIn {units : List Nat} (h : Fresh units) (e : Encoding) : FreshIn e units :=
  fun unit hunit v _ => h unit hunit v

/-- ASCII never goes on with a character. -/
theorem feed_ascii {unit : Nat} (h : unit < 0x80) (v : Unfinished) : v.feed unit = none := by
  cases v with
  | utf8 more code least =>
    have : isContinuation unit = false := by
      rw [isContinuation, beq_eq_false_iff_ne]
      omega
    simp [Unfinished.feed, this]
  | surrogate high =>
    rw [Unfinished.feed, if_neg (by omega)]

theorem fresh_ascii {unit : Nat} (h : unit < 0x80) (units : List Nat) :
    Fresh (unit :: units) := by
  intro x hx v
  obtain rfl : unit = x := by simpa using hx
  exact feed_ascii h v

variable {e : Encoding} {more : List Nat}

theorem finish_append (h : FreshIn e more) {v : Unfinished} (hv : ArisesIn e v)
    (units : List Nat) :
    finish v (units ++ more) = ((finish v units).1, (finish v units).2 ++ more) := by
  induction units generalizing v with
  | nil =>
    cases more with
    | nil => rfl
    | cons unit more => simp only [List.nil_append, finish, h unit rfl v hv]
  | cons unit units ih =>
    rw [List.cons_append, finish, finish]
    cases hf : v.feed unit with
    | none => rfl
    | some d =>
      cases d with
      | char c => rfl
      | more v' => exact ih (hv.feed hf)

theorem first_append {units rest : List Nat} {c : Char} (hm : FreshIn e more)
    (h : first e units = some (c, rest)) :
    first e (units ++ more) = some (c, rest ++ more) := by
  cases units with
  | nil => simp at h
  | cons unit units =>
    rw [List.cons_append]
    rw [first] at h ⊢
    split at h
    · rename_i hs
      simp only [Option.some.injEq, Prod.mk.injEq] at h
      simp [h]
    · rename_i hs
      rw [Option.some.injEq] at h
      simp [finish_append hm (.start hs), h]

/-- A text can be cut before a unit that no character goes on with. -/
theorem decode_append (units : List Nat) (hm : FreshIn e more) :
    e.decode (units ++ more) = e.decode units ++ e.decode more := by
  induction hn : units.length using Nat.strongRecOn generalizing units with
  | _ n ih =>
    cases units with
    | nil => rfl
    | cons unit units =>
      obtain ⟨c, rest, hf⟩ := exists_first e unit units
      have hlt := length_lt_of_first hf
      rw [decode_of_first hf, decode_of_first (first_append hm hf),
        ih rest.length (hn ▸ hlt) rest rfl]
      rfl

end Tabular.Decode
