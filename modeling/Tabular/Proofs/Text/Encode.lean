/-
What has been encoded is decoded again.

* `Encoding.assemble_unitBytes` — a code unit is made of its bytes;
* `Encoding.charUnits`, `Encoding.groups_encode` — the code units of a
  character, and those that the bytes of a text group into;
* `Decode.first_charUnits` — a character comes off the front of its units,
  whatever follows them;
* `Encoding.decode_charUnits` — so a text is decoded as itself.

Only characters that the encoding represents come back, since any other is
written as a question mark.
-/
import Mathlib.Algebra.Order.Ring.Nat
import Mathlib.Data.List.Basic
import Tabular.Text.Encode
import Tabular.Proofs.Input.Memory
import Tabular.Proofs.Text.Ascii

namespace Tabular

namespace Encoding

variable {e : Encoding}

/-! ### Bytes of units -/

theorem length_digits (width n : Nat) : (digits width n).length = width := by
  induction width generalizing n with
  | zero => rfl
  | succ width ih => rw [digits, List.length_append, ih, List.length_singleton]

theorem length_unitBytes (e : Encoding) (unit : Nat) : (e.unitBytes unit).length = e.unitWidth := by
  rw [unitBytes, bigEndian]
  split
  · rw [List.length_reverse, length_digits]
  · rw [length_digits]

theorem bigEndian_bigEndian (bytes : List UInt8) : e.bigEndian (e.bigEndian bytes) = bytes := by
  rw [bigEndian, bigEndian]
  split
  · rw [List.reverse_reverse]
  · rfl

theorem foldl_digits {width n : Nat} (hw : 256 ^ width ≤ 0x100000000) (hn : n < 256 ^ width) :
    (digits width n).foldl (fun unit b => (unit * 256 + b.toNat) % 0x100000000) 0 = n := by
  induction width generalizing n with
  | zero => exact (Nat.lt_one_iff.mp hn).symm
  | succ width ih =>
    rw [Nat.pow_succ] at hw hn
    -- The number without its last digit, which the fold takes last.
    have hdiv : n / 256 < 256 ^ width := Nat.div_lt_of_lt_mul (by rwa [Nat.mul_comm])
    have hlast : (UInt8.ofNat n).toNat = n % 256 := UInt8.toNat_ofNat'
    rw [digits, List.foldl_append, ih (by omega) hdiv, List.foldl_cons, List.foldl_nil, hlast]
    omega

/-- A code unit is made of its bytes. -/
theorem assemble_unitBytes {unit : Nat} (h : unit < 256 ^ e.unitWidth) :
    e.assemble (e.unitBytes unit) = unit := by
  have hw : 256 ^ e.unitWidth ≤ 0x100000000 := by cases e <;> decide
  rw [assemble, unitBytes, bigEndian_bigEndian]
  exact foldl_digits hw h

theorem groups_unitBytes {units : List Nat} (h : ∀ unit ∈ units, unit < 256 ^ e.unitWidth) :
    e.Groups (units.flatMap e.unitBytes) units := by
  induction units with
  | nil => exact .nil
  | cons unit units ih =>
    have hgroup : e.Groups _ (e.assemble (e.unitBytes unit) :: units) :=
      .cons (e.length_unitBytes unit) (ih fun u hu => h u (List.mem_cons_of_mem _ hu))
    rw [assemble_unitBytes (h unit (List.mem_cons_self ..))] at hgroup
    exact hgroup

end Encoding

namespace Encoding

variable {e : Encoding} {c : Char}

/-- The code units of a character that the encoding represents. -/
def charUnits (e : Encoding) (c : Char) : List Nat :=
  match e with
  | unknown | utf8 => (String.utf8EncodeChar c).map UInt8.toNat
  | windows1252 => [(Windows1252.byte? c).getD 0]
  | utf16le | utf16be => utf16Units c
  | latin1 | ucs2le | ucs2be | utf32le | utf32be | ucs4le | ucs4be => [c.toNat]

theorem charBytes_eq (e : Encoding) (c : Char) :
    e.charBytes c = (e.charUnits c).flatMap e.unitBytes := by
  have hbytes : ∀ {e : Encoding} (bytes : List UInt8), e.unitBytes = (fun u => [UInt8.ofNat u]) →
      bytes = (bytes.map UInt8.toNat).flatMap e.unitBytes := by
    intro e bytes he
    rw [he, List.flatMap_map]
    simp
  cases e with
  | unknown => exact hbytes _ rfl
  | utf8 => exact hbytes _ rfl
  | utf16le | utf16be => rfl
  | windows1252 | latin1 | ucs2le | ucs2be | utf32le | utf32be | ucs4le | ucs4be =>
    exact (List.flatMap_singleton ..).symm

theorem toNat_lt (c : Char) : c.toNat < 0x110000 := by
  rcases c.valid with h | h
  · exact Nat.lt_trans h (by decide)
  · exact h.2

theorem charUnits_lt (h : e.represents c) : ∀ unit ∈ e.charUnits c, unit < 256 ^ e.unitWidth := by
  have hc := toNat_lt c
  have hutf8 : ∀ unit ∈ (String.utf8EncodeChar c).map UInt8.toNat, unit < 256 ^ 1 := by
    intro unit hu
    obtain ⟨b, -, rfl⟩ := List.mem_map.mp hu
    exact b.toNat_lt
  have hutf16 : ∀ unit ∈ utf16Units c, unit < 256 ^ 2 := by
    intro unit hu
    rw [utf16Units] at hu
    split at hu
    · obtain rfl := List.mem_singleton.mp hu
      omega
    · simp only [List.mem_cons, List.not_mem_nil, or_false] at hu
      rcases hu with hu | hu
      · omega
      · omega
  -- The other encodings have one unit for a character.
  have one : ∀ {n : Nat} (bound : Nat), n < bound → ∀ unit ∈ [n], unit < bound := by
    intro n bound hn unit hu
    rwa [List.mem_singleton.mp hu]
  cases e with
  | unknown | utf8 => exact hutf8
  | utf16le | utf16be => exact hutf16
  | windows1252 =>
    obtain ⟨byte, hb⟩ := Option.isSome_iff_exists.mp h
    refine one (256 ^ 1) ?_
    rw [hb]
    exact (Windows1252.char_of_byte? hb).1
  | latin1 =>
    have hle : c.toNat ≤ 0xFF := by simpa [represents] using h
    exact one _ (Nat.lt_of_le_of_lt hle (by decide))
  | ucs2le | ucs2be =>
    have hle : c.toNat ≤ 0xFFFF := by simpa [represents] using h
    exact one _ (Nat.lt_of_le_of_lt hle (by decide))
  | utf32le | utf32be | ucs4le | ucs4be => exact one _ (Nat.lt_trans hc (by decide))

theorem encode_eq {text : List Char} (h : ∀ c ∈ text, e.represents c) :
    e.encode text = (text.flatMap e.charUnits).flatMap e.unitBytes := by
  rw [List.flatMap_assoc]
  refine List.flatMap_congr fun c hc => ?_
  rw [encodeChar, if_pos (h c hc), charBytes_eq]

/-- The bytes of a text group into the units of its characters. -/
theorem groups_encode {text : List Char} (h : ∀ c ∈ text, e.represents c) :
    e.Groups (e.encode text) (text.flatMap e.charUnits) := by
  rw [encode_eq h]
  refine groups_unitBytes fun unit hu => ?_
  obtain ⟨c, hc, hu⟩ := List.mem_flatMap.mp hu
  exact charUnits_lt (h c hc) unit hu

end Encoding

/-! ### Decoding -/

theorem scalar_toNat (c : Char) : scalar c.toNat = c := by
  have hvalid : c.toNat.isValidChar := c.valid
  rw [scalar_eq hvalid, Char.ofNat_toNat]

namespace Decode

theorem finish_last {code least unit : Nat} (hu : unit / 64 = 2) (units : List Nat) :
    finish (.utf8 0 code least) (unit :: units) =
      (if code * 64 + unit % 64 < least then replacement else scalar (code * 64 + unit % 64),
        units) := by
  have hcont : isContinuation unit := by rw [isContinuation, hu]; rfl
  rw [finish, Unfinished.feed, if_pos hcont]

theorem finish_more {more code least unit : Nat} (hu : unit / 64 = 2) (units : List Nat) :
    finish (.utf8 (more + 1) code least) (unit :: units) =
      finish (.utf8 more (code * 64 + unit % 64) least) units := by
  have hcont : isContinuation unit := by rw [isContinuation, hu]; rfl
  rw [finish, Unfinished.feed, if_pos hcont]

/-- The UTF-8 units of a character, as numbers. -/
theorem map_toNat_utf8EncodeChar (c : Char) :
    (String.utf8EncodeChar c).map UInt8.toNat =
      if c.toNat ≤ 0x7F then [c.toNat]
      else if c.toNat ≤ 0x7FF then [0xC0 + c.toNat / 64, 0x80 + c.toNat % 64]
      else if c.toNat ≤ 0xFFFF then
        [0xE0 + c.toNat / 4096, 0x80 + c.toNat / 64 % 64, 0x80 + c.toNat % 64]
      else [0xF0 + c.toNat / 262144, 0x80 + c.toNat / 4096 % 64, 0x80 + c.toNat / 64 % 64,
        0x80 + c.toNat % 64] := by
  have hc := Encoding.toNat_lt c
  have hbyte : ∀ n m, n % 256 = m → (UInt8.ofNat n).toNat = m := by
    intro n m h
    rw [UInt8.toNat_ofNat', ← h]
  have hval : c.val.toNat = c.toNat := rfl
  rw [String.utf8EncodeChar, hval]
  by_cases h1 : c.toNat ≤ 0x7F
  · simp only [if_pos h1, List.map_cons, List.map_nil]
    rw [hbyte _ c.toNat (by omega)]
  by_cases h2 : c.toNat ≤ 0x7FF
  · simp only [if_neg h1, if_pos h2, List.map_cons, List.map_nil]
    rw [hbyte _ (0xC0 + c.toNat / 64) (by omega), hbyte _ (0x80 + c.toNat % 64) (by omega)]
  by_cases h3 : c.toNat ≤ 0xFFFF
  · simp only [if_neg h1, if_neg h2, if_pos h3, List.map_cons, List.map_nil]
    rw [hbyte _ (0xE0 + c.toNat / 4096) (by omega), hbyte _ (0x80 + c.toNat / 64 % 64) (by omega),
      hbyte _ (0x80 + c.toNat % 64) (by omega)]
  · simp only [if_neg h1, if_neg h2, if_neg h3, List.map_cons, List.map_nil]
    rw [hbyte _ (0xF0 + c.toNat / 262144) (by omega),
      hbyte _ (0x80 + c.toNat / 4096 % 64) (by omega),
      hbyte _ (0x80 + c.toNat / 64 % 64) (by omega), hbyte _ (0x80 + c.toNat % 64) (by omega)]

theorem first_utf8EncodeChar (c : Char) (units : List Nat) :
    first .utf8 ((String.utf8EncodeChar c).map UInt8.toNat ++ units) = some (c, units) := by
  have hc := Encoding.toNat_lt c
  have done : ∀ {code least : Nat}, code = c.toNat → least ≤ c.toNat →
      (if code < least then replacement else scalar code) = c := by
    rintro code least rfl hl
    rw [if_neg (Nat.not_lt_of_le hl), scalar_toNat]
  -- By the number of units, each of which says how many are to follow or goes on.
  rw [map_toNat_utf8EncodeChar]
  split_ifs with h1 h2 h3
  · rw [List.singleton_append, first, start, startUtf8, if_pos h1, scalar_toNat]
  · simp only [List.cons_append, List.nil_append]
    rw [first, start, startUtf8, if_neg (by omega), if_pos (by omega)]
    dsimp only
    rw [finish_last (by omega), done (by omega) (by omega)]
  · simp only [List.cons_append, List.nil_append]
    rw [first, start, startUtf8, if_neg (by omega), if_neg (by omega), if_pos (by omega)]
    dsimp only
    rw [finish_more (by omega), finish_last (by omega), done (by omega) (by omega)]
  · simp only [List.cons_append, List.nil_append]
    rw [first, start, startUtf8, if_neg (by omega), if_neg (by omega), if_neg (by omega),
      if_pos (by omega)]
    dsimp only
    rw [finish_more (by omega), finish_more (by omega), finish_last (by omega),
      done (by omega) (by omega)]

theorem first_utf16Units (c : Char) (units : List Nat) :
    first .utf16le (utf16Units c ++ units) = some (c, units) := by
  have hc := Encoding.toNat_lt c
  have hvalid := c.valid
  rw [utf16Units]
  split_ifs with h
  · -- No character is a surrogate.
    have hnot : ¬ (0xD800 ≤ c.toNat ∧ c.toNat ≤ 0xDBFF) := by
      rcases hvalid with h | h
      · have : c.toNat < 0xD800 := h
        omega
      · have : 0xDFFF < c.toNat := h.1
        omega
    rw [List.singleton_append, first, start, startUtf16, if_neg hnot, scalar_toNat]
  · simp only [List.cons_append, List.nil_append]
    rw [first, start, startUtf16, if_pos (by omega)]
    dsimp only
    rw [finish, Unfinished.feed, if_pos (by omega)]
    dsimp only
    have hcode : 0x10000 + (0xD800 + (c.toNat - 0x10000) / 1024 - 0xD800) * 1024 +
        (0xDC00 + (c.toNat - 0x10000) % 1024 - 0xDC00) = c.toNat := by omega
    rw [hcode, scalar_toNat]

/-- A character comes off the front of its units. -/
theorem first_charUnits {e : Encoding} {c : Char} (h : e.represents c) (units : List Nat) :
    first e (e.charUnits c ++ units) = some (c, units) := by
  have alone : first .latin1 ([c.toNat] ++ units) = some (c, units) := by
    rw [List.singleton_append, first, start, scalar_toNat]
  cases e with
  | unknown | utf8 => exact first_utf8EncodeChar c units
  | utf16le | utf16be => exact first_utf16Units c units
  | windows1252 =>
    obtain ⟨byte, hb⟩ := Option.isSome_iff_exists.mp h
    obtain ⟨hlt, hchar⟩ := Windows1252.char_of_byte? hb
    rw [Encoding.charUnits, hb, Option.getD_some, List.singleton_append, first, start,
      Nat.mod_eq_of_lt hlt, hchar]
  | latin1 | ucs2le | ucs2be | utf32le | utf32be | ucs4le | ucs4be => exact alone

end Decode

/-- The units of a text are decoded as the text. -/
theorem Encoding.decode_charUnits {e : Encoding} {text : List Char}
    (h : ∀ c ∈ text, e.represents c) : e.decode (text.flatMap e.charUnits) = text := by
  induction text with
  | nil => rfl
  | cons c text ih =>
    rw [List.flatMap_cons,
      Decode.decode_of_first (Decode.first_charUnits (h c (List.mem_cons_self ..)) _),
      ih fun d hd => h d (List.mem_cons_of_mem _ hd)]

end Tabular
