/-
ASCII in the encodings whose units are single bytes.

* `Windows1252.char_inj`, `Windows1252.le_toNat_char` — the bytes of the code
  page stand for different characters, ASCII ones for themselves and no others
  for ASCII, because of `nodup_middle` and `middle_outside`;
* `first_ascii` — an ASCII byte is a character of its own, wherever it stands;
* `first_above` — a character that begins with any other byte is not ASCII,
  and no byte of it is.

So the ASCII characters of a text are its ASCII bytes, however broken the rest
of it may be.
-/
import Mathlib.Data.List.Nodup
import Mathlib.Tactic.Common
import Tabular.Proofs.Text.FirstChar

namespace Tabular

theorem scalar_eq {code : Nat} (h : code.isValidChar) : scalar code = Char.ofNat code := by
  rw [scalar, scalar?, if_pos h]
  rfl

theorem scalar_eq_replacement {code : Nat} (h : ¬ code.isValidChar) :
    scalar code = replacement := by
  rw [scalar, scalar?, if_neg h]
  rfl

theorem isValidChar_of_lt {code : Nat} (h : code < 0xD800) : code.isValidChar := .inl h

theorem toNat_ofNat {code : Nat} (h : code.isValidChar) : (Char.ofNat code).toNat = code := by
  rw [Char.ofNat, dif_pos h]
  rfl

/-- What is not ASCII does not decode to ASCII. -/
theorem le_toNat_scalar {code : Nat} (h : 0x80 ≤ code) : 0x80 ≤ (scalar code).toNat := by
  by_cases hv : code.isValidChar
  · rw [scalar_eq hv, toNat_ofNat hv]
    exact h
  · rw [scalar_eq_replacement hv]
    decide

namespace Windows1252

theorem char_ascii {byte : Nat} (h : byte < 0x80) : char byte = Char.ofNat byte := by
  rw [char, if_neg (by omega)]

/-- The characters of the table are distinct. -/
theorem nodup_middle : middle.Nodup := by decide

/-- None of them is the character of another byte, least of all an ASCII
character. -/
theorem middle_outside {c : Char} (h : c ∈ middle) :
    ¬ (c.toNat < 0x80 ∨ (0xA0 ≤ c.toNat ∧ c.toNat ≤ 0xFF)) := by
  have hall : middle.all fun c =>
      ¬ (c.toNat < 0x80 ∨ (0xA0 ≤ c.toNat ∧ c.toNat ≤ 0xFF)) := by decide
  exact of_decide_eq_true (List.all_eq_true.mp hall c h)

theorem char_middle {i : Nat} (h : i < middle.length) : char (0x80 + i) = middle[i] := by
  have hlen : middle.length = 32 := rfl
  rw [char, if_pos (by omega), Nat.add_sub_cancel_left, List.getElem?_eq_getElem h]
  rfl

/-- A byte is in the table, or it is the code point of its character. -/
theorem middle_or {byte : Nat} (hb : byte < 256) :
    (∃ (i : Nat) (h : i < middle.length), byte = 0x80 + i ∧ char byte = middle[i]) ∨
      ((byte < 0x80 ∨ (0xA0 ≤ byte ∧ byte ≤ 0xFF)) ∧ (char byte).toNat = byte) := by
  have hlen : middle.length = 32 := rfl
  by_cases h : 0x80 ≤ byte ∧ byte < 0xA0
  · obtain ⟨i, rfl⟩ := Nat.exists_eq_add_of_le h.1
    have hi : i < middle.length := by omega
    exact .inl ⟨i, hi, rfl, char_middle hi⟩
  · rw [char, if_neg h, toNat_ofNat (isValidChar_of_lt (by omega))]
    exact .inr ⟨by omega, rfl⟩

/-- What is not ASCII does not stand for ASCII. -/
theorem le_toNat_char {byte : Nat} (h : 0x80 ≤ byte) (hb : byte < 256) :
    0x80 ≤ (char byte).toNat := by
  rcases middle_or hb with ⟨i, hi, -, hchar⟩ | ⟨-, hchar⟩
  · rw [hchar]
    exact Nat.le_of_not_lt fun hlt => middle_outside (List.getElem_mem hi) (.inl hlt)
  · rw [hchar]
    exact h

/-- The byte of a character is the one that stands for it. -/
theorem byte?_char {byte : Nat} (hb : byte < 256) : byte? (char byte) = some byte := by
  rcases middle_or hb with ⟨i, hi, rfl, hchar⟩ | ⟨hbyte, hchar⟩
  · have hidx : middle.idxOf? middle[i] = some i := by
      refine List.idxOf?_eq_some_iff.mpr ⟨hi, rfl, fun j hj heq => ?_⟩
      exact Nat.ne_of_lt hj ((nodup_middle.getElem_inj_iff).mp heq)
    rw [hchar, byte?, if_neg (middle_outside (List.getElem_mem hi)), hidx]
    rfl
  · rw [byte?, hchar, if_pos hbyte]

/-- The byte of a character stands for it. -/
theorem char_of_byte? {c : Char} {byte : Nat} (h : byte? c = some byte) :
    byte < 256 ∧ char byte = c := by
  rw [byte?] at h
  split at h
  · obtain rfl := Option.some.inj h
    rw [char, if_neg (by omega), Char.ofNat_toNat]
    exact ⟨by omega, rfl⟩
  · obtain ⟨i, hi, rfl⟩ := Option.map_eq_some_iff.mp h
    obtain ⟨hlt, heq, -⟩ := List.idxOf?_eq_some_iff.mp hi
    have hlen : middle.length = 32 := rfl
    exact ⟨by omega, (char_middle hlt).trans heq⟩

/-- All 256 bytes stand for different characters. -/
theorem char_inj {a b : Nat} (ha : a < 256) (hb : b < 256) : char a = char b ↔ a = b := by
  refine ⟨fun h => ?_, congrArg char⟩
  have hbyte := byte?_char ha
  rw [h, byte?_char hb] at hbyte
  exact (Option.some.inj hbyte).symm

end Windows1252

namespace Decode

theorem first_ascii {e : Encoding} (he : e.isSingleByte) {unit : Nat} (h : unit < 0x80)
    (units : List Nat) : first e (unit :: units) = some (Char.ofNat unit, units) := by
  have hs : scalar unit = Char.ofNat unit := scalar_eq (isValidChar_of_lt (by omega))
  have hu : startUtf8 unit = .char (Char.ofNat unit) := by
    rw [startUtf8, if_pos (by omega), hs]
  cases e with
  | unknown | utf8 => simp only [first, start, hu]
  | latin1 => simp only [first, start, hs]
  | windows1252 =>
    simp only [first, start, Nat.mod_eq_of_lt (show unit < 256 by omega),
      Windows1252.char_ascii h]
  | utf16le | utf16be | utf32le | utf32be | ucs2le | ucs2be | ucs4le | ucs4be =>
    exact absurd he (by decide)

/-- What was taken from `units` is a character above ASCII, read from units
above ASCII. -/
def TakesAbove (units : List Nat) (taken : Char × List Nat) : Prop :=
  0x80 ≤ taken.1.toNat ∧ ∃ eaten, units = eaten ++ taken.2 ∧ ∀ unit ∈ eaten, 0x80 ≤ unit

theorem TakesAbove.none {c : Char} (hc : 0x80 ≤ c.toNat) (units : List Nat) :
    TakesAbove units (c, units) :=
  ⟨hc, [], rfl, by simp⟩

theorem TakesAbove.cons {unit : Nat} {units : List Nat} {taken : Char × List Nat}
    (hu : 0x80 ≤ unit) (h : TakesAbove units taken) : TakesAbove (unit :: units) taken := by
  obtain ⟨hc, eaten, heq, heaten⟩ := h
  refine ⟨hc, unit :: eaten, by rw [heq, List.cons_append], ?_⟩
  rintro x (_ | ⟨_, hx⟩)
  · exact hu
  · exact heaten x hx

/-- A unit that belongs to an unfinished character is not ASCII. -/
theorem le_of_feed {v : Unfinished} {unit : Nat} {d : Decoded} (h : v.feed unit = some d) :
    0x80 ≤ unit := by
  by_contra hlt
  rw [feed_ascii (Nat.lt_of_not_le hlt)] at h
  simp at h

theorem finish_utf8 (more code : Nat) {least : Nat} (hl : 0x80 ≤ least) (units : List Nat) :
    TakesAbove units (finish (.utf8 more code least) units) := by
  have hr : 0x80 ≤ replacement.toNat := by decide
  induction units generalizing more code with
  | nil => exact .none hr []
  | cons unit units ih =>
    rw [finish]
    cases hf : (Unfinished.utf8 more code least).feed unit with
    | none => exact .none hr _
    | some d =>
      have hu := le_of_feed hf
      rw [Unfinished.feed] at hf
      split at hf
      · cases more with
        | zero =>
          obtain rfl := Option.some.inj hf
          refine .cons hu (.none ?_ _)
          split_ifs
          · exact hr
          · exact le_toNat_scalar (by omega)
        | succ more =>
          obtain rfl := Option.some.inj hf
          exact .cons hu (ih more _)
      · simp at hf

/-- A character that does not begin with ASCII has nothing of ASCII. -/
theorem first_above {e : Encoding} (he : e.isSingleByte) {unit : Nat} (h : 0x80 ≤ unit)
    (hb : unit < 256) {units : List Nat} {taken : Char × List Nat}
    (hf : first e (unit :: units) = some taken) : TakesAbove (unit :: units) taken := by
  -- One character for one unit, in the encodings that have nothing longer.
  have alone : ∀ {c : Char}, 0x80 ≤ c.toNat → some (c, units) = some taken →
      TakesAbove (unit :: units) taken := by
    rintro c hc heq
    obtain rfl := Option.some.inj heq
    exact .cons h (.none hc units)
  have utf8 : first .utf8 (unit :: units) = some taken → TakesAbove (unit :: units) taken := by
    intro hf
    simp only [first, start, startUtf8] at hf
    rw [if_neg (by omega)] at hf
    split_ifs at hf
    · exact Option.some.inj hf ▸ .cons h (finish_utf8 _ _ (by omega) units)
    · exact Option.some.inj hf ▸ .cons h (finish_utf8 _ _ (by omega) units)
    · exact Option.some.inj hf ▸ .cons h (finish_utf8 _ _ (by omega) units)
    · exact alone (by decide) hf
  cases e with
  | unknown | utf8 => exact utf8 hf
  | latin1 => exact alone (le_toNat_scalar h) hf
  | windows1252 =>
    refine alone ?_ hf
    rw [Nat.mod_eq_of_lt hb]
    exact Windows1252.le_toNat_char h hb
  | utf16le | utf16be | utf32le | utf32be | ucs2le | ucs2be | ucs4le | ucs4be =>
    exact absurd he (by decide)

end Decode

end Tabular
