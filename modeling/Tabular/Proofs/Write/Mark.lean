/-
The byte order mark of a written text.

* `Encoding.eq_of_charBytes_prefix` — no text begins with the bytes of a
  character that it does not begin with;
* `ByteOrderMark.detect_encode` — so no text that does not begin with U+FEFF
  is taken to have a mark of its encoding;
* `ByteOrderMark.detect_append` — a mark is recognised before a text, unless
  that begins with U+0000;
* `Table.resolve_written` — a written text is read in its encoding, from after
  its mark on.

Design notes: a mark is U+FEFF in its encoding.  In UTF-16LE the mark and
U+0000 after it make the mark of UTF-32LE.
-/
import Tabular.Writer
import Tabular.Proofs.Read.Start
import Tabular.Proofs.Text.Encode

namespace Tabular

namespace Encoding

variable {e : Encoding}

theorem prefix_of_unitBytes {us vs : List Nat} (hu : ∀ unit ∈ us, unit < 256 ^ e.unitWidth)
    (hv : ∀ unit ∈ vs, unit < 256 ^ e.unitWidth)
    (h : us.flatMap e.unitBytes <+: vs.flatMap e.unitBytes) : us <+: vs := by
  induction us generalizing vs with
  | nil => exact List.nil_prefix
  | cons u us ih =>
    obtain ⟨rest, hrest⟩ := h
    cases vs with
    | nil =>
      have hlen := congrArg List.length hrest
      rw [List.flatMap_cons, List.append_assoc, List.length_append, length_unitBytes] at hlen
      have := e.unitWidth_pos
      simp at hlen
      omega
    | cons v vs =>
      rw [List.flatMap_cons, List.flatMap_cons, List.append_assoc] at hrest
      -- Units take the same number of bytes, so the first ones are on the same bytes.
      obtain ⟨hbytes, htail⟩ := List.append_inj hrest
        ((e.length_unitBytes u).trans (e.length_unitBytes v).symm)
      obtain rfl : u = v := by
        have := congrArg e.assemble hbytes
        rwa [assemble_unitBytes (hu u (List.mem_cons_self ..)),
          assemble_unitBytes (hv v (List.mem_cons_self ..))] at this
      refine (List.prefix_cons_inj u).mpr (ih ?_ ?_ ⟨rest, htail⟩)
      · exact fun w hw => hu w (List.mem_cons_of_mem _ hw)
      · exact fun w hw => hv w (List.mem_cons_of_mem _ hw)

/-- No text begins with the bytes of a character that it does not begin
with. -/
theorem eq_of_charBytes_prefix {c : Char} {text : List Char} (hc : e.represents c)
    (ht : ∀ d ∈ text, e.represents d) (h : e.charBytes c <+: e.encode text) :
    text.head? = some c := by
  rw [charBytes_eq, encode_eq ht] at h
  have hunits : ∀ unit ∈ text.flatMap e.charUnits, unit < 256 ^ e.unitWidth := by
    intro unit hu
    obtain ⟨d, hd, hu⟩ := List.mem_flatMap.mp hu
    exact charUnits_lt (ht d hd) unit hu
  obtain ⟨rest, hrest⟩ := prefix_of_unitBytes (charUnits_lt hc) hunits h
  -- What is decoded first is told by the units alone.
  have hfirst := Decode.first_charUnits hc rest
  rw [hrest] at hfirst
  cases text with
  | nil => simp at hfirst
  | cons d text =>
    rw [List.flatMap_cons, Decode.first_charUnits (ht d (List.mem_cons_self ..))] at hfirst
    obtain ⟨rfl, -⟩ := Prod.mk.inj (Option.some.inj hfirst)
    rfl

end Encoding

namespace ByteOrderMark

variable {e : Encoding} {mark : ByteOrderMark} {text : List Char}

theorem bytes_eq_charBytes (h : ofEncoding? e = some mark) :
    mark.bytes = e.charBytes '\uFEFF' := by
  cases e with
  | unknown | latin1 | windows1252 => simp [ofEncoding?] at h
  | utf8 | utf16le | utf16be | ucs2le | ucs2be | utf32le | utf32be | ucs4le | ucs4be =>
    obtain rfl := Option.some.inj h
    rfl

theorem represents_mark (h : ofEncoding? e = some mark) : e.represents '\uFEFF' := by
  cases e with
  | unknown | latin1 | windows1252 => simp [ofEncoding?] at h
  | utf8 | utf16le | utf16be | ucs2le | ucs2be | utf32le | utf32be | ucs4le | ucs4be => rfl

/-- What does not begin with U+FEFF does not begin with the mark of its
encoding. -/
theorem detect_encode (h : ofEncoding? e = some mark) (ht : ∀ c ∈ text, e.represents c)
    (hfirst : text.head? ≠ some '\uFEFF') : detect ((e.encode text).take 4) ≠ some mark := by
  intro hdetect
  have hprefixed := (isPrefixOf_of_detect hdetect).trans (List.take_prefix 4 _)
  rw [bytes_eq_charBytes h] at hprefixed
  exact hfirst (Encoding.eq_of_charBytes_prefix (represents_mark h) ht hprefixed)

theorem lt_of_mem_utf8EncodeChar {c : Char} {b : UInt8} (h : b ∈ String.utf8EncodeChar c) :
    b.toNat < 0xF8 := by
  have hc := Encoding.toNat_lt c
  have hmem : b.toNat ∈ (String.utf8EncodeChar c).map UInt8.toNat := List.mem_map_of_mem h
  rw [Decode.map_toNat_utf8EncodeChar] at hmem
  split_ifs at hmem
  · have := List.mem_singleton.mp hmem
    omega
  · simp only [List.mem_cons, List.not_mem_nil, or_false] at hmem
    omega
  · simp only [List.mem_cons, List.not_mem_nil, or_false] at hmem
    omega
  · simp only [List.mem_cons, List.not_mem_nil, or_false] at hmem
    omega

/-- UTF-8 that does not begin with U+FEFF does not begin with any mark. -/
theorem detect_utf8 (hfirst : text.head? ≠ some '\uFEFF') :
    detect ((Encoding.utf8.encode text).take 4) = none := by
  cases hdetect : detect ((Encoding.utf8.encode text).take 4) with
  | none => rfl
  | some mark =>
    by_cases hmark : mark = utf8
    · exact absurd (hmark ▸ hdetect) (detect_encode rfl (fun _ _ => rfl) hfirst)
    · -- All other marks have a byte that UTF-8 has no use for.
      have habove : ∃ b ∈ mark.bytes, ¬ b.toNat < 0xF8 := by
        cases mark with
        | utf8 => exact absurd rfl hmark
        | utf16le | utf16be | utf32le | utf32be => decide
      obtain ⟨b, hb, hge⟩ := habove
      have hprefixed := (isPrefixOf_of_detect hdetect).trans (List.take_prefix 4 _)
      obtain ⟨c, -, hb⟩ := List.mem_flatMap.mp (hprefixed.subset hb)
      exact absurd (lt_of_mem_utf8EncodeChar hb) hge

/-- A mark is recognised before a text, unless that begins with U+0000. -/
theorem detect_append (h : ofEncoding? e = some mark) (ht : ∀ c ∈ text, e.represents c)
    (hfirst : text.head? ≠ some '\x00') :
    detect ((mark.bytes ++ e.encode text).take 4) = some mark := by
  -- With two zero bytes after it, the mark of UTF-16LE is that of UTF-32LE.
  have hle : e.charBytes '\x00' = [0, 0] → e.represents '\x00' →
      detect ((utf16le.bytes ++ e.encode text).take 4) = some utf16le := by
    intro hzero hrepresents
    have hnot : ([0, 0] : List UInt8).isPrefixOf ((e.encode text).take 2) = false := by
      rw [← Bool.not_eq_true, List.isPrefixOf_iff_prefix, ← hzero]
      intro hprefixed
      exact hfirst (Encoding.eq_of_charBytes_prefix hrepresents ht
        (hprefixed.trans (List.take_prefix 2 _)))
    have htake : (utf16le.bytes ++ e.encode text).take 4 = 0xFF :: 0xFE :: (e.encode text).take 2 :=
      rfl
    have hmark : utf32le.bytes.isPrefixOf (0xFF :: 0xFE :: (e.encode text).take 2) = false := hnot
    rw [htake, detect, List.find?_cons_of_neg (by simp [bytes]),
      List.find?_cons_of_neg (by simp [hmark])]
    rfl
  cases e with
  | unknown | latin1 | windows1252 => simp [ofEncoding?] at h
  | utf16le | ucs2le =>
    obtain rfl := Option.some.inj h
    exact hle rfl rfl
  | utf8 | utf16be | ucs2be | utf32le | utf32be | ucs4le | ucs4be =>
    obtain rfl := Option.some.inj h
    rfl

end ByteOrderMark

namespace Encoding

variable {e : Encoding} {head : List UInt8}

/-- Where an encoding is asked for, only its own mark is passed over. -/
theorem resolve_of_ne (he : e ≠ .unknown)
    (h : ∀ mark, ByteOrderMark.ofEncoding? e = some mark → ByteOrderMark.detect head ≠ some mark) :
    e.resolve head = (e, 0) := by
  cases hd : ByteOrderMark.detect head with
  | none => cases e <;> simp [resolve, hd] at he ⊢
  | some mark =>
    have hne : ByteOrderMark.ofEncoding? e ≠ some mark := fun hmark => h mark hmark hd
    cases e <;> simp [resolve, hd, hne] at he ⊢

theorem resolve_of_mark {mark : ByteOrderMark} (he : e ≠ .unknown)
    (hmark : ByteOrderMark.ofEncoding? e = some mark)
    (hd : ByteOrderMark.detect head = some mark) : e.resolve head = (e, mark.size) := by
  cases e <;> simp [resolve, hd, hmark] at he ⊢

end Encoding

namespace Table

theorem writtenMark_eq (f : Format) :
    writtenMark f = [] ∨ ∃ mark, ByteOrderMark.ofEncoding? (writtenEncoding f) = some mark ∧
      writtenMark f = [mark.bytes] := by
  rw [writtenMark]
  split
  · cases h : ByteOrderMark.ofEncoding? (writtenEncoding f) with
    | none => exact .inl rfl
    | some mark => exact .inr ⟨mark, rfl, rfl⟩
  · exact .inl rfl

/-- A written text is read in the encoding that it is written in, from after
its mark on, if it begins with nothing that could be part of a mark. -/
theorem resolve_written {f : Format} {text : List Char}
    (ht : ∀ c ∈ text, (writtenEncoding f).represents c) (hmark : text.head? ≠ some '\uFEFF')
    (hzero : text.head? ≠ some '\x00') :
    f.encoding.resolve (((writtenMark f).flatten ++ (writtenEncoding f).encode text).take 4) =
      (writtenEncoding f, (writtenMark f).flatten.length) := by
  rcases writtenMark_eq f with hnone | ⟨mark, hown, hsome⟩
  · rw [hnone, List.flatten_nil, List.nil_append]
    by_cases hf : f.encoding = .unknown
    · rw [writtenEncoding, if_pos hf, hf]
      simp only [Encoding.resolve, ByteOrderMark.detect_utf8 hmark]
      rfl
    · have he : writtenEncoding f = f.encoding := if_neg hf
      rw [he] at ht ⊢
      exact Encoding.resolve_of_ne hf fun mark hown => ByteOrderMark.detect_encode hown ht hmark
  · have hdetect := ByteOrderMark.detect_append hown ht hzero
    rw [hsome, List.flatten_singleton]
    by_cases hf : f.encoding = .unknown
    · have he : writtenEncoding f = .utf8 := if_pos hf
      rw [he] at hown hdetect ⊢
      obtain rfl := Option.some.inj hown
      rw [hf]
      simp only [Encoding.resolve, hdetect]
      rfl
    · have he : writtenEncoding f = f.encoding := if_neg hf
      rw [he] at hown hdetect ⊢
      exact Encoding.resolve_of_mark hf hown hdetect

end Table

end Tabular
