/-
Where a text can be cut, whatever comes before.

* `Encoding.Continues` — a unit that can only go on with a character;
* `Decode.freshIn_of_not_continues` — no character goes on with any other;
* `Units.decodeAll_ofUnits` — a reader of the bytes of units decodes them as
  the list that they are;
* `Encoding.decode_append_of_not_continues` — so what a character has not
  completed is never completed by what comes after a cut.

Design notes: a unit can be broken off at every depth of a character, but the
unit that breaks it is always looked at anew.  So all that matters is which
units any character of the encoding goes on with.
-/
import Tabular.Proofs.Read.Decoded

namespace Tabular

/-- Whether a unit can only go on with a character, as a continuation unit of
UTF-8 and a low surrogate of UTF-16 do. -/
def Encoding.Continues (e : Encoding) (unit : Nat) : Prop :=
  match e with
  | unknown | utf8 => 0x80 ≤ unit ∧ unit ≤ 0xBF
  | utf16le | utf16be => 0xDC00 ≤ unit ∧ unit ≤ 0xDFFF
  | latin1 | windows1252 | ucs2le | ucs2be | utf32le | utf32be | ucs4le | ucs4be => False

namespace Decode

variable {e : Encoding} {unit : Nat} {units : List Nat} {v : Unfinished}

/-- What can be unfinished is a sequence of UTF-8, or a high surrogate. -/
theorem ArisesIn.cases_encoding (h : ArisesIn e v) :
    (e = .utf8 ∨ e = .unknown) ∧ (∃ more code least, v = .utf8 more code least) ∨
      (e = .utf16le ∨ e = .utf16be) ∧ ∃ high, v = .surrogate high := by
  induction h with
  | @start unit v h =>
    have hutf8 : startUtf8 unit = .more v → ∃ more code least, v = .utf8 more code least := by
      intro hs
      rw [startUtf8] at hs
      split_ifs at hs <;> exact ⟨_, _, _, (Decoded.more.inj hs).symm⟩
    have hutf16 : startUtf16 unit = .more v → ∃ high, v = .surrogate high := by
      intro hs
      rw [startUtf16] at hs
      split_ifs at hs
      exact ⟨_, (Decoded.more.inj hs).symm⟩
    cases e with
    | unknown => exact .inl ⟨.inr rfl, hutf8 h⟩
    | utf8 => exact .inl ⟨.inl rfl, hutf8 h⟩
    | utf16le => exact .inr ⟨.inl rfl, hutf16 h⟩
    | utf16be => exact .inr ⟨.inr rfl, hutf16 h⟩
    | latin1 | windows1252 | ucs2le | ucs2be | utf32le | utf32be | ucs4le | ucs4be =>
      exact absurd h (by simp [Decode.start])
  | @feed unit v v' hv h ih =>
    rcases ih with ⟨he, more, code, least, rfl⟩ | ⟨he, high, rfl⟩
    · refine .inl ⟨he, ?_⟩
      rw [Unfinished.feed] at h
      split at h
      · cases more with
        | zero => exact absurd h (by simp)
        | succ more => exact ⟨_, _, _, (Decoded.more.inj (Option.some.inj h)).symm⟩
      · exact absurd h (by simp)
    · rw [Unfinished.feed] at h
      split at h <;> exact absurd h (by simp)

/-- No character goes on with a unit that does not have to. -/
theorem freshIn_of_not_continues (hunit : ∀ unit ∈ units.head?, unit < 256 ^ e.unitWidth)
    (h : ∀ unit ∈ units.head?, ¬ e.Continues unit) : FreshIn e units := by
  intro unit hu v hv
  have hlt := hunit unit hu
  have hnot := h unit hu
  rcases hv.cases_encoding with ⟨he, more, code, least, rfl⟩ | ⟨he, high, rfl⟩
  · have hcont : ¬ isContinuation unit := by
      rw [isContinuation, beq_iff_eq]
      rcases he with rfl | rfl
      all_goals
        rw [Encoding.Continues] at hnot
        rw [Encoding.unitWidth] at hlt
        omega
    rw [Unfinished.feed, if_neg hcont]
  · rw [Unfinished.feed, if_neg]
    rcases he with rfl | rfl <;> exact hnot

/-- ASCII is a character of its own in every encoding. -/
theorem start_ascii (e : Encoding) (h : unit < 0x80) : start e unit = .char (Char.ofNat unit) := by
  have hscalar : scalar unit = Char.ofNat unit := scalar_eq (isValidChar_of_lt (by omega))
  cases e with
  | unknown | utf8 =>
    show startUtf8 unit = _
    rw [startUtf8, if_pos (by omega), hscalar]
  | utf16le | utf16be =>
    show startUtf16 unit = _
    rw [startUtf16, if_neg (by omega), hscalar]
  | windows1252 =>
    show Decoded.char (Windows1252.char (unit % 256)) = _
    rw [Nat.mod_eq_of_lt (by omega), Windows1252.char_ascii h]
  | latin1 | ucs2le | ucs2be | utf32le | utf32be | ucs4le | ucs4be =>
    exact congrArg Decoded.char hscalar

end Decode

/-- A reader of the bytes of code units. -/
def Units.ofUnits (e : Encoding) (units : List Nat) : Units :=
  ofSource (.ofBytes (units.flatMap e.unitBytes)) e

/-- It decodes them as the list that they are. -/
theorem Units.decodeAll_ofUnits {e : Encoding} {units : List Nat}
    (h : ∀ unit ∈ units, unit < 256 ^ e.unitWidth) :
    ∃ u, (ofUnits e units).decodeAll = .ok (e.decode units) u := by
  obtain ⟨u, hall, -⟩ := (brings_ofSource e (Source.yields_ofBytes _)).decodeAll
  rw [(Encoding.groups_unitBytes h).unitsOf_eq] at hall
  exact ⟨u, hall⟩

/-- A broken sequence never takes in what comes after it: before a unit that
does not have to go on with a character a text can be cut, and ASCII is itself
wherever it stands. -/
theorem Encoding.decode_append_of_not_continues (e : Encoding) {units more : List Nat}
    (hunits : ∀ unit ∈ units ++ more, unit < 256 ^ e.unitWidth)
    (hmore : ∀ unit ∈ more.head?, ¬ e.Continues unit) :
    e.decode (units ++ more) = e.decode units ++ e.decode more ∧
    (∃ u, (Units.ofUnits e (units ++ more)).decodeAll =
      .ok (e.decode units ++ e.decode more) u) ∧
    ∀ unit < 0x80, ∀ rest : List Nat,
      e.decode (units ++ unit :: rest) = e.decode units ++ Char.ofNat unit :: e.decode rest := by
  have hfresh : Decode.FreshIn e more := by
    refine Decode.freshIn_of_not_continues (fun unit hu => hunits unit ?_) hmore
    exact List.mem_append_right _ (List.mem_of_head? hu)
  have happend := Decode.decode_append units hfresh
  refine ⟨happend, happend ▸ Units.decodeAll_ofUnits hunits, fun unit hascii rest => ?_⟩
  rw [Decode.decode_append units ((Decode.fresh_ascii hascii rest).freshIn e)]
  exact congrArg _ (Decode.decodeFrom_char (Decode.start_ascii e hascii))

/-- A sequence of three units that lacks the last, before another that lacks
its second; and a high surrogate before another. -/
theorem Encoding.decode_append_of_not_continues_broken :
    (∀ unit ∈ [0x61, 0xE2, 0x82] ++ [0xC3, 0x2C], unit < 256 ^ utf8.unitWidth) ∧
    (∀ unit ∈ [0xC3, 0x2C].head?, ¬ utf8.Continues unit) ∧
    utf8.decode [0x61, 0xE2, 0x82, 0xC3, 0x2C] = ['a', '\uFFFD', '\uFFFD', ','] ∧
    (∀ unit ∈ [0xD83D] ++ [0xD83D, 0xDE00], unit < 256 ^ utf16be.unitWidth) ∧
    (∀ unit ∈ [0xD83D, 0xDE00].head?, ¬ utf16be.Continues unit) ∧
    utf16be.decode [0xD83D, 0xD83D, 0xDE00] = ['\uFFFD', '😀'] := by
  have hutf8 : ∀ unit ∈ [0x61, 0xE2, 0x82] ++ [0xC3, 0x2C], unit < 256 ^ utf8.unitWidth := by
    decide
  have hlead : ∀ unit ∈ [0xC3, 0x2C].head?, ¬ utf8.Continues unit := by simp [Continues]
  have hutf16 : ∀ unit ∈ [0xD83D] ++ [0xD83D, 0xDE00], unit < 256 ^ utf16be.unitWidth := by
    decide
  have hhigh : ∀ unit ∈ [0xD83D, 0xDE00].head?, ¬ utf16be.Continues unit := by simp [Continues]
  exact ⟨hutf8, hlead, (decode_append_of_not_continues utf8 hutf8 hlead).1, hutf16, hhigh,
    (decode_append_of_not_continues utf16be hutf16 hhigh).1⟩

end Tabular
