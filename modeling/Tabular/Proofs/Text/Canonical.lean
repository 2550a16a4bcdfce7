/-
Only its own bytes are decoded as a character.

* `Encoding.unitBytes_assemble` — a code unit is stored as the bytes that it
  was made of;
* `Decode.eq_charUnits_of_first` — a character that is decoded, unless it is
  U+FFFD, was encoded as the units that it was decoded from;
* `Encoding.encode_ascii` — so ASCII is stored as it is.

What cannot be decoded reads as U+FFFD, so of that character nothing can be
said.
-/
import Mathlib.Data.List.Induction
import Tabular.Proofs.Text.Encode

namespace Tabular

namespace Encoding

variable {e : Encoding}

theorem foldl_lt {bytes : List UInt8} (h : bytes.length ≤ 4) :
    bytes.foldl (fun unit b => (unit * 256 + b.toNat) % 0x100000000) 0 < 256 ^ bytes.length := by
  induction bytes using List.reverseRecOn with
  | nil => exact Nat.one_pos
  | append_singleton bytes b ih =>
    rw [List.length_append, List.length_singleton] at h ⊢
    have hlt := ih (by omega)
    have hb := b.toNat_lt
    rw [List.foldl_append, List.foldl_cons, List.foldl_nil, Nat.pow_succ]
    refine Nat.lt_of_le_of_lt (Nat.mod_le ..) ?_
    omega

theorem digits_foldl {bytes : List UInt8} (h : bytes.length ≤ 4) :
    digits bytes.length
      (bytes.foldl (fun unit b => (unit * 256 + b.toNat) % 0x100000000) 0) = bytes := by
  induction bytes using List.reverseRecOn with
  | nil => rfl
  | append_singleton bytes b ih =>
    rw [List.length_append, List.length_singleton] at h ⊢
    have hlt := foldl_lt (show bytes.length ≤ 4 by omega)
    have hpow : 256 ^ bytes.length ≤ 256 ^ 3 := Nat.pow_le_pow_right (by decide) (by omega)
    have hb := b.toNat_lt
    rw [List.foldl_append, List.foldl_cons, List.foldl_nil, digits]
    generalize bytes.foldl (fun unit b => (unit * 256 + b.toNat) % 0x100000000) 0 = unit at *
    -- Nothing is carried over the end of a unit of four bytes.
    rw [Nat.mod_eq_of_lt (by omega), show (unit * 256 + b.toNat) / 256 = unit by omega,
      ih (by omega)]
    congr 2
    refine UInt8.toNat_inj.mp ?_
    rw [UInt8.toNat_ofNat']
    omega

theorem length_bigEndian (bytes : List UInt8) : (e.bigEndian bytes).length = bytes.length := by
  rw [bigEndian]
  split
  · exact List.length_reverse
  · rfl

/-- A code unit is stored as the bytes that it was made of. -/
theorem unitBytes_assemble {bytes : List UInt8} (h : bytes.length = e.unitWidth) :
    e.unitBytes (e.assemble bytes) = bytes := by
  have hw : e.unitWidth ≤ 4 := by cases e <;> decide
  have hlen : (e.bigEndian bytes).length = e.unitWidth := (length_bigEndian bytes).trans h
  have hdigits := digits_foldl (show (e.bigEndian bytes).length ≤ 4 by omega)
  rw [hlen] at hdigits
  rw [unitBytes, assemble, hdigits, bigEndian_bigEndian]

theorem assemble_lt {bytes : List UInt8} (h : bytes.length = e.unitWidth) :
    e.assemble bytes < 256 ^ e.unitWidth := by
  have hw : e.unitWidth ≤ 4 := by cases e <;> decide
  have hlen : (e.bigEndian bytes).length = e.unitWidth := (length_bigEndian bytes).trans h
  rw [← hlen, assemble]
  exact foldl_lt (by omega)

end Encoding

theorem toNat_of_scalar {code : Nat} {c : Char} (h : scalar code = c) (hc : c ≠ replacement) :
    c.toNat = code := by
  rw [scalar, scalar?] at h
  split at h
  · rename_i hvalid
    rw [Option.getD_some] at h
    rw [← h, toNat_ofNat hvalid]
  · exact absurd h.symm hc

namespace Decode

variable {c : Char} {units rest : List Nat}

/-- The unit after which a character in UTF-8 is complete. -/
theorem eq_of_finish_last {code least : Nat} (hunits : ∀ unit ∈ units, unit < 256)
    (h : finish (.utf8 0 code least) units = (c, rest)) (hc : c ≠ replacement) :
    ∃ unit, units = unit :: rest ∧ unit / 64 = 2 ∧ c.toNat = code * 64 + unit % 64 ∧
      least ≤ c.toNat := by
  cases units with
  | nil => exact absurd (Prod.mk.inj h).1.symm hc
  | cons unit units =>
    have hlt := hunits unit (List.mem_cons_self ..)
    by_cases hcont : unit / 64 = 2
    · rw [finish_last hcont] at h
      obtain ⟨hscalar, rfl⟩ := Prod.mk.inj h
      split at hscalar
      · exact absurd hscalar.symm hc
      · rename_i hle
        have hcode := toNat_of_scalar hscalar hc
        exact ⟨unit, rfl, hcont, hcode, hcode ▸ Nat.le_of_not_lt hle⟩
    · have hnot : ¬ isContinuation unit := by
        rw [isContinuation, beq_iff_eq]
        omega
      rw [finish, Unfinished.feed, if_neg hnot] at h
      exact absurd (Prod.mk.inj h).1.symm hc

/-- A unit that is followed by others of the same character. -/
theorem eq_of_finish_more {more code least : Nat} (hunits : ∀ unit ∈ units, unit < 256)
    (h : finish (.utf8 (more + 1) code least) units = (c, rest)) (hc : c ≠ replacement) :
    ∃ unit units', units = unit :: units' ∧ unit / 64 = 2 ∧
      finish (.utf8 more (code * 64 + unit % 64) least) units' = (c, rest) := by
  cases units with
  | nil => exact absurd (Prod.mk.inj h).1.symm hc
  | cons unit units =>
    have hlt := hunits unit (List.mem_cons_self ..)
    by_cases hcont : unit / 64 = 2
    · rw [finish_more hcont] at h
      exact ⟨unit, units, rfl, hcont, h⟩
    · have hnot : ¬ isContinuation unit := by
        rw [isContinuation, beq_iff_eq]
        omega
      rw [finish, Unfinished.feed, if_neg hnot] at h
      exact absurd (Prod.mk.inj h).1.symm hc

theorem eq_utf8_of_first (hunits : ∀ unit ∈ units, unit < 256)
    (h : first .utf8 units = some (c, rest)) (hc : c ≠ replacement) :
    units = (String.utf8EncodeChar c).map UInt8.toNat ++ rest := by
  cases units with
  | nil => simp at h
  | cons unit units =>
    have hlt := hunits unit (List.mem_cons_self ..)
    have hmore : ∀ unit ∈ units, unit < 256 := fun u hu => hunits u (List.mem_cons_of_mem _ hu)
    rw [first, start, startUtf8] at h
    rw [map_toNat_utf8EncodeChar]
    -- By the number of units that the first one asks for.
    split_ifs at h with h1 h2 h3 h4
    · obtain ⟨hscalar, rfl⟩ := Prod.mk.inj (Option.some.inj h)
      have hcode := toNat_of_scalar hscalar hc
      rw [if_pos (by omega), hcode]
      rfl
    · obtain ⟨u, rfl, hu, hcode, hle⟩ := eq_of_finish_last hmore (Option.some.inj h) hc
      have hu' := hmore u (List.mem_cons_self ..)
      rw [if_neg (by omega), if_pos (by omega), show 0xC0 + c.toNat / 64 = unit by omega,
        show 0x80 + c.toNat % 64 = u by omega]
      rfl
    · obtain ⟨u, units', rfl, hu, h⟩ := eq_of_finish_more hmore (Option.some.inj h) hc
      rw [List.forall_mem_cons] at hmore
      obtain ⟨v, rfl, hv, hcode, hle⟩ := eq_of_finish_last hmore.2 h hc
      have hv' := hmore.2 v (List.mem_cons_self ..)
      rw [if_neg (by omega), if_neg (by omega), if_pos (by omega),
        show 0xE0 + c.toNat / 4096 = unit by omega, show 0x80 + c.toNat / 64 % 64 = u by omega,
        show 0x80 + c.toNat % 64 = v by omega]
      rfl
    · obtain ⟨u, units', rfl, hu, h⟩ := eq_of_finish_more hmore (Option.some.inj h) hc
      rw [List.forall_mem_cons] at hmore
      obtain ⟨v, units'', rfl, hv, h⟩ := eq_of_finish_more hmore.2 h hc
      rw [List.forall_mem_cons] at hmore
      obtain ⟨w, rfl, hw, hcode, hle⟩ := eq_of_finish_last hmore.2.2 h hc
      have hw' := hmore.2.2 w (List.mem_cons_self ..)
      rw [if_neg (by omega), if_neg (by omega), if_neg (by omega),
        show 0xF0 + c.toNat / 262144 = unit by omega,
        show 0x80 + c.toNat / 4096 % 64 = u by omega, show 0x80 + c.toNat / 64 % 64 = v by omega,
        show 0x80 + c.toNat % 64 = w by omega]
      rfl
    · exact absurd (Prod.mk.inj (Option.some.inj h)).1.symm hc

theorem eq_utf16Units_of_first (hunits : ∀ unit ∈ units, unit < 65536)
    (h : first .utf16le units = some (c, rest)) (hc : c ≠ replacement) :
    units = utf16Units c ++ rest := by
  cases units with
  | nil => simp at h
  | cons unit units =>
    have hlt := hunits unit (List.mem_cons_self ..)
    rw [first, start, startUtf16] at h
    rw [utf16Units]
    split_ifs at h with hhigh
    · dsimp only at h
      cases units with
      | nil => exact absurd (Prod.mk.inj (Option.some.inj h)).1.symm hc
      | cons low units =>
        rw [finish, Unfinished.feed] at h
        split_ifs at h with hlow
        · obtain ⟨hscalar, rfl⟩ := Prod.mk.inj (Option.some.inj h)
          have hcode := toNat_of_scalar hscalar hc
          rw [if_neg (by omega), show 0xD800 + (c.toNat - 0x10000) / 1024 = unit by omega,
            show 0xDC00 + (c.toNat - 0x10000) % 1024 = low by omega]
          rfl
        · exact absurd (Prod.mk.inj (Option.some.inj h)).1.symm hc
    · obtain ⟨hscalar, rfl⟩ := Prod.mk.inj (Option.some.inj h)
      have hcode := toNat_of_scalar hscalar hc
      rw [if_pos (by omega), hcode]
      rfl

/-- A character that is decoded was encoded as the units that it was decoded
from. -/
theorem eq_charUnits_of_first {e : Encoding} (hunits : ∀ unit ∈ units, unit < 256 ^ e.unitWidth)
    (h : first e units = some (c, rest)) (hc : c ≠ replacement) :
    e.represents c ∧ units = e.charUnits c ++ rest := by
  have alone : ∀ {unit : Nat} {units : List Nat}, some (scalar unit, units) = some (c, rest) →
      c.toNat = unit ∧ unit :: units = [c.toNat] ++ rest := by
    intro unit units h
    obtain ⟨hscalar, rfl⟩ := Prod.mk.inj (Option.some.inj h)
    have hcode := toNat_of_scalar hscalar hc
    exact ⟨hcode, by rw [hcode]; rfl⟩
  cases e with
  | unknown | utf8 => exact ⟨rfl, eq_utf8_of_first hunits h hc⟩
  | utf16le | utf16be => exact ⟨rfl, eq_utf16Units_of_first hunits h hc⟩
  | windows1252 =>
    cases units with
    | nil => simp at h
    | cons unit units =>
      have hlt : unit < 256 := hunits unit (List.mem_cons_self ..)
      obtain ⟨hchar, rfl⟩ := Prod.mk.inj (Option.some.inj h)
      rw [Nat.mod_eq_of_lt hlt] at hchar
      have hbyte := Windows1252.byte?_char hlt
      rw [hchar] at hbyte
      rw [Encoding.represents, Encoding.charUnits, hbyte]
      exact ⟨rfl, rfl⟩
  | latin1 =>
    cases units with
    | nil => simp at h
    | cons unit units =>
      have hlt : unit < 256 := hunits unit (List.mem_cons_self ..)
      obtain ⟨hcode, heq⟩ := alone h
      refine ⟨?_, heq⟩
      rw [Encoding.represents, decide_eq_true_eq]
      omega
  | ucs2le | ucs2be =>
    cases units with
    | nil => simp at h
    | cons unit units =>
      have hlt : unit < 65536 := hunits unit (List.mem_cons_self ..)
      obtain ⟨hcode, heq⟩ := alone h
      refine ⟨?_, heq⟩
      rw [Encoding.represents, decide_eq_true_eq]
      omega
  | utf32le | utf32be | ucs4le | ucs4be =>
    cases units with
    | nil => simp at h
    | cons unit units => exact ⟨rfl, (alone h).2⟩

end Decode

namespace Encoding

variable {e : Encoding}

theorem encode_singleton {c : Char} (h : e.represents c) : e.encode [c] = e.charBytes c := by
  rw [encode, List.flatMap_singleton, encodeChar, if_pos h]

/-- An ASCII character is stored as its code. -/
theorem encode_ascii (he : e.isSingleByte) {b : UInt8} (hb : b.toNat < 0x80) :
    e.encode [Char.ofNat b.toNat] = [b] := by
  have hfirst := Decode.first_ascii he hb []
  have hne : Char.ofNat b.toNat ≠ replacement := by
    intro heq
    have hcode := congrArg Char.toNat heq
    rw [toNat_ofNat (isValidChar_of_lt (by omega))] at hcode
    exact absurd hcode (Nat.ne_of_lt (Nat.lt_trans hb (by decide)))
  have hw := unitWidth_eq_one he
  have hbytes : e.unitBytes (e.assemble [b]) = [b] := unitBytes_assemble hw.symm
  obtain ⟨hrepresents, hunits⟩ := Decode.eq_charUnits_of_first
    (by rw [hw]; exact List.forall_mem_singleton.mpr b.toNat_lt) hfirst hne
  rw [List.append_nil] at hunits
  rw [encode_singleton hrepresents, charBytes_eq, ← hunits, List.flatMap_singleton,
    ← assemble_singleton, hbytes]

end Encoding

end Tabular
