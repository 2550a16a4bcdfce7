/-
What stands for no character is decoded as U+FFFD.

* `Encoding.unitsOf_append` — bytes group into units part by part;
* `Utf8Shape` — units in the shape of a sequence of UTF-8, and what they spell;
* `Encoding.Malformed` — bytes among others that stand for no character;
* `Encoding.decode_malformed` — they are decoded as U+FFFD and nothing else,
  and what stands before and after them as if they were not there.

Design notes: a surrogate is only malformed where it has no partner, which is
why `Malformed` is told what stands around the bytes.
-/
import Mathlib.Data.List.Infix
import Tabular.Proofs.Read.Boundary
import Tabular.Proofs.Read.Within
import Tabular.Proofs.Text.WholeRun

namespace Tabular

namespace Encoding

variable {e : Encoding}

/-! ### Units of bytes, part by part -/

theorem unitsOf_append {before : List UInt8} (h : e.unitWidth ∣ before.length)
    (after : List UInt8) : e.unitsOf (before ++ after) = e.unitsOf before ++ e.unitsOf after := by
  have hw := e.unitWidth_pos
  fun_induction unitsOf e before with
  | case1 => rfl
  | case2 b bytes ih =>
    have hle : e.unitWidth ≤ (b :: bytes).length := Nat.le_of_dvd (Nat.succ_pos _) h
    have hrest : e.unitWidth ∣ ((b :: bytes).drop e.unitWidth).length := by
      rw [List.length_drop]
      exact Nat.dvd_sub h (Nat.dvd_refl _)
    have hlen : ¬ (b :: (bytes ++ after)).length < e.unitWidth := by
      simp only [List.length_cons, List.length_append] at hle ⊢
      omega
    rw [List.cons_append, unitsOf, if_neg hlen, if_neg (Nat.not_lt_of_le hle), ← List.cons_append,
      List.take_append_of_le_length hle, List.drop_append_of_le_length hle, ih hrest,
      List.cons_append]

theorem unitsOf_unitBytes_append {unit : Nat} (h : unit < 256 ^ e.unitWidth) (after : List UInt8) :
    e.unitsOf (e.unitBytes unit ++ after) = unit :: e.unitsOf after := by
  have hgroups := groups_unitBytes (List.forall_mem_singleton.mpr h)
  rw [List.flatMap_singleton] at hgroups
  rw [unitsOf_append (by rw [length_unitBytes]), hgroups.unitsOf_eq, List.singleton_append]

theorem unitsOf_cut {form : List UInt8} (hne : form ≠ []) (hlt : form.length < e.unitWidth) :
    e.unitsOf form = [replacement.toNat] := by
  obtain ⟨b, bytes, rfl⟩ := List.exists_cons_of_ne_nil hne
  rw [unitsOf, if_pos hlt, List.drop_eq_nil_of_le (Nat.le_of_lt hlt), unitsOf_nil]

end Encoding

/-! ### What stands for no character -/

def IsHighSurrogate (unit : Nat) : Prop := 0xD800 ≤ unit ∧ unit ≤ 0xDBFF

def IsLowSurrogate (unit : Nat) : Prop := 0xDC00 ≤ unit ∧ unit ≤ 0xDFFF

/-- Units in the shape of a sequence of UTF-8, with the number that they spell
and the least number that takes so many. -/
inductive Utf8Shape : List Nat → (number least : Nat) → Prop
  | two {a b : Nat} (ha : 0xC0 ≤ a ∧ a ≤ 0xDF) (hb : 0x80 ≤ b ∧ b ≤ 0xBF) :
    Utf8Shape [a, b] (a % 32 * 64 + b % 64) 0x80
  | three {a b c : Nat} (ha : 0xE0 ≤ a ∧ a ≤ 0xEF) (hb : 0x80 ≤ b ∧ b ≤ 0xBF)
      (hc : 0x80 ≤ c ∧ c ≤ 0xBF) :
    Utf8Shape [a, b, c] ((a % 16 * 64 + b % 64) * 64 + c % 64) 0x800
  | four {a b c d : Nat} (ha : 0xF0 ≤ a ∧ a ≤ 0xF7) (hb : 0x80 ≤ b ∧ b ≤ 0xBF)
      (hc : 0x80 ≤ c ∧ c ≤ 0xBF) (hd : 0x80 ≤ d ∧ d ≤ 0xBF) :
    Utf8Shape [a, b, c, d] (((a % 8 * 64 + b % 64) * 64 + c % 64) * 64 + d % 64) 0x10000

/-- The first of them never goes on with a character. -/
theorem Utf8Shape.not_continues {units : List Nat} {number least : Nat}
    (h : Utf8Shape units number least) (more : List Nat) :
    ∀ unit ∈ (units ++ more).head?, ¬ Encoding.utf8.Continues unit := by
  intro unit hunit hcont
  have hle : unit ≤ 0xBF := hcont.2
  cases h with
  | two ha | three ha | four ha =>
    obtain rfl := Option.some.inj hunit
    omega

/-- Bytes that stand for no character, between those before and those after
them. -/
inductive Encoding.Malformed (e : Encoding) : (before form after : List UInt8) → Prop
  /-- In UTF-8, an overlong form, a surrogate, or a number beyond the last
  character. -/
  | sequence {before form after : List UInt8} {number least : Nat} (he : e = utf8 ∨ e = unknown)
      (hshape : Utf8Shape (form.map UInt8.toNat) number least)
      (hnumber : number < least ∨ ¬ number.isValidChar) : Malformed e before form after
  /-- In UTF-16, a high surrogate before anything but a low one. -/
  | high {before after : List UInt8} {unit : Nat} (he : e = utf16le ∨ e = utf16be)
      (hwhole : e.unitWidth ∣ before.length) (hunit : IsHighSurrogate unit)
      (hafter : ∀ next ∈ (e.unitsOf after).head?, ¬ IsLowSurrogate next) :
    Malformed e before (e.unitBytes unit) after
  /-- In UTF-16, a low surrogate after anything but a high one. -/
  | low {before after : List UInt8} {unit : Nat} (he : e = utf16le ∨ e = utf16be)
      (hwhole : e.unitWidth ∣ before.length) (hunit : IsLowSurrogate unit)
      (hbefore : ∀ last ∈ (e.unitsOf before).getLast?, ¬ IsHighSurrogate last) :
    Malformed e before (e.unitBytes unit) after
  /-- Where a unit is the code point of a character, one that is not: a
  surrogate, or a number beyond the last character. -/
  | number {before after : List UInt8} {unit : Nat}
      (he : e ∈ [ucs2le, ucs2be, utf32le, utf32be, ucs4le, ucs4be])
      (hwhole : e.unitWidth ∣ before.length) (hunit : unit < 256 ^ e.unitWidth)
      (hnumber : ¬ unit.isValidChar) : Malformed e before (e.unitBytes unit) after
  /-- A unit that the end of the text cuts short. -/
  | cut {before form : List UInt8} (hwhole : e.unitWidth ∣ before.length) (hne : form ≠ [])
      (hlt : form.length < e.unitWidth) : Malformed e before form []

/-! ### It is decoded as U+FFFD -/

namespace Decode

variable {e : Encoding} {unit : Nat} {units : List Nat}

/-- A number is decoded as U+FFFD if it is too small for its form, or if no
character has it. -/
theorem decoded_eq_replacement {number least : Nat} (h : number < least ∨ ¬ number.isValidChar) :
    (if number < least then replacement else scalar number) = replacement := by
  split
  · rfl
  · rename_i hle
    exact scalar_eq_replacement (h.resolve_left hle)

/-- A text can be cut before a unit that does not have to go on with a
character. -/
theorem decode_append_cons (hlt : unit < 256 ^ e.unitWidth) (hnot : ¬ e.Continues unit)
    (before after : List Nat) :
    e.decode (before ++ unit :: after) = e.decode before ++ e.decode (unit :: after) := by
  refine decode_append _ (freshIn_of_not_continues ?_ ?_)
  · rintro _ ⟨⟩
    exact hlt
  · rintro _ ⟨⟩
    exact hnot

/-- Before a unit that is cut short it always can. -/
theorem decode_append_replacement (before after : List Nat) :
    e.decode (before ++ replacement.toNat :: after) =
      e.decode before ++ e.decode (replacement.toNat :: after) := by
  refine decode_append before ?_
  rintro _ ⟨⟩ v -
  exact v.feed_replacement

theorem decode_cons_replacement (h : start e unit = .char replacement) (units : List Nat) :
    e.decode (unit :: units) = replacement :: e.decode units := decodeFrom_char h

/-- What begins no sequence of UTF-8 is U+FFFD by itself. -/
theorem startUtf8_eq_replacement (h : 0x80 ≤ unit ∧ unit ≤ 0xC1 ∨ 0xF5 ≤ unit) :
    startUtf8 unit = .char replacement := by
  rw [startUtf8, if_neg (by omega), if_neg (by omega), if_neg (by omega), if_neg (by omega)]

theorem decode_shape {number least : Nat} (hshape : Utf8Shape units number least)
    (hnumber : number < least ∨ ¬ number.isValidChar) (after : List Nat) :
    ∃ count, Encoding.utf8.decode (units ++ after) =
      List.replicate (count + 1) replacement ++ Encoding.utf8.decode after := by
  have hdone := decoded_eq_replacement hnumber
  have halone : ∀ {unit : Nat}, 0x80 ≤ unit ∧ unit ≤ 0xC1 ∨ 0xF5 ≤ unit → ∀ units : List Nat,
      Encoding.utf8.decode (unit :: units) = replacement :: Encoding.utf8.decode units :=
    fun h => decode_cons_replacement (startUtf8_eq_replacement h)
  cases hshape with
  | @two a b ha hb =>
    -- Only an overlong form is malformed, which its first unit gives away.
    have hsmall : a % 32 * 64 + b % 64 < 0x80 :=
      hnumber.resolve_right fun hnot => hnot (isValidChar_of_lt (by omega))
    refine ⟨1, ?_⟩
    rw [List.cons_append, List.singleton_append, halone (by omega), halone (by omega)]
    rfl
  | @three a b c ha hb hc =>
    refine ⟨0, decode_of_first ?_⟩
    rw [List.cons_append, List.cons_append, List.singleton_append, first, start, startUtf8,
      if_neg (by omega), if_neg (by omega), if_pos (by omega)]
    dsimp only
    rw [finish_more (by omega), finish_last (by omega), hdone]
  | @four a b c d ha hb hc hd =>
    rw [List.cons_append, List.cons_append, List.cons_append, List.singleton_append]
    by_cases hlead : a ≤ 0xF4
    · refine ⟨0, decode_of_first ?_⟩
      rw [first, start, startUtf8, if_neg (by omega), if_neg (by omega), if_neg (by omega),
        if_pos (by omega)]
      dsimp only
      rw [finish_more (by omega), finish_more (by omega), finish_last (by omega), hdone]
    · refine ⟨3, ?_⟩
      rw [halone (by omega), halone (by omega), halone (by omega), halone (by omega)]
      rfl

theorem start_utf16 (he : e = .utf16le ∨ e = .utf16be) (unit : Nat) :
    start e unit = startUtf16 unit := by
  rcases he with rfl | rfl <;> rfl

/-- A high surrogate begins a character of two units. -/
theorem start_high (he : e = .utf16le ∨ e = .utf16be) (hunit : IsHighSurrogate unit) :
    start e unit = .more (.surrogate unit) := by
  have hunit : 0xD800 ≤ unit ∧ unit ≤ 0xDBFF := hunit
  rw [start_utf16 he, startUtf16, if_pos hunit]

/-- It is U+FFFD by itself before anything but a low one. -/
theorem decode_high (he : e = .utf16le ∨ e = .utf16be) (hunit : IsHighSurrogate unit)
    (hunits : ∀ next ∈ units.head?, ¬ IsLowSurrogate next) :
    e.decode (unit :: units) = replacement :: e.decode units := by
  refine decode_of_first ?_
  rw [first, start_high he hunit]
  dsimp only
  cases units with
  | nil => rfl
  | cons next units =>
    have hnext : ¬ (0xDC00 ≤ next ∧ next ≤ 0xDFFF) := hunits next rfl
    rw [finish, Unfinished.feed, if_neg hnext]

/-- After anything but a high surrogate, nothing is unfinished. -/
theorem decode_append_of_getLast? (he : e = .utf16le ∨ e = .utf16be)
    (h : ∀ last ∈ units.getLast?, ¬ IsHighSurrogate last) (more : List Nat) :
    e.decode (units ++ more) = e.decode units ++ e.decode more := by
  induction units using Strategy.induction_first .decode e with
  | nil => rfl
  | step units c rest hf ih =>
    have hf : first e units = some (c, rest) := hf
    have happend : first e (units ++ more) = some (c, rest ++ more) := by
      cases units with
      | nil => exact absurd hf (by simp)
      | cons unit units =>
        rw [List.cons_append]
        rw [first, start_utf16 he, startUtf16] at hf ⊢
        by_cases hunit : 0xD800 ≤ unit ∧ unit ≤ 0xDBFF
        · rw [if_pos hunit] at hf ⊢
          cases units with
          | nil => exact absurd hunit (h unit rfl)
          | cons next units =>
            -- What comes next decides, and it is there.
            dsimp only at hf ⊢
            rw [List.cons_append]
            rw [finish, Unfinished.feed] at hf ⊢
            by_cases hnext : 0xDC00 ≤ next ∧ next ≤ 0xDFFF
            · rw [if_pos hnext] at hf ⊢
              obtain ⟨rfl, rfl⟩ := Prod.mk.inj (Option.some.inj hf)
              rfl
            · rw [if_neg hnext] at hf ⊢
              obtain ⟨rfl, rfl⟩ := Prod.mk.inj (Option.some.inj hf)
              rfl
        · rw [if_neg hunit] at hf ⊢
          obtain ⟨rfl, rfl⟩ := Prod.mk.inj (Option.some.inj hf)
          rfl
    have hlast : ∀ last ∈ rest.getLast?, ¬ IsHighSurrogate last := by
      obtain ⟨taken, rfl⟩ := suffix_of_first hf
      refine fun last hlast => h last ?_
      rw [List.getLast?_append, Option.mem_def.mp hlast]
      rfl
    rw [decode_of_first happend, decode_of_first hf, ih hlast, List.cons_append]

end Decode

namespace Encoding

variable {e : Encoding} {before form after : List UInt8}

/-- One unit that is U+FFFD by itself, and before which the text can be cut. -/
theorem decode_alone {unit : Nat} (hwhole : e.unitWidth ∣ before.length)
    (hunits : e.unitsOf (form ++ after) = unit :: e.unitsOf after)
    (hcut : e.decode (e.unitsOf before ++ unit :: e.unitsOf after) =
      e.decode (e.unitsOf before) ++ e.decode (unit :: e.unitsOf after))
    (halone : e.decode (unit :: e.unitsOf after) = replacement :: e.decode (e.unitsOf after)) :
    ∃ count, e.decode (e.unitsOf (before ++ form ++ after)) =
      e.decode (e.unitsOf before) ++ List.replicate (count + 1) replacement ++
        e.decode (e.unitsOf after) := by
  refine ⟨0, ?_⟩
  rw [List.append_assoc, unitsOf_append hwhole, hunits, hcut, halone, List.append_assoc]
  rfl

theorem decode_sequence {number least : Nat} (he : e = utf8 ∨ e = unknown)
    (hshape : Utf8Shape (form.map UInt8.toNat) number least)
    (hnumber : number < least ∨ ¬ number.isValidChar) (before after : List UInt8) :
    ∃ count, e.decode (e.unitsOf (before ++ form ++ after)) =
      e.decode (e.unitsOf before) ++ List.replicate (count + 1) replacement ++
        e.decode (e.unitsOf after) := by
  have hsingle : e.isSingleByte := by rcases he with rfl | rfl <;> rfl
  have hdecode : ∀ units, e.decode units = utf8.decode units := by
    rcases he with rfl | rfl
    · exact fun _ => rfl
    · exact decodeFrom_unknown none
  have hcut : Decode.FreshIn utf8 (form.map UInt8.toNat ++ after.map UInt8.toNat) := by
    refine Decode.freshIn_of_not_continues (fun unit hunit => ?_) (hshape.not_continues _)
    rw [← List.map_append] at hunit
    obtain ⟨b, -, rfl⟩ := List.mem_map.mp (List.mem_of_head? hunit)
    exact b.toNat_lt
  obtain ⟨count, hshape⟩ := Decode.decode_shape hshape hnumber (after.map UInt8.toNat)
  refine ⟨count, ?_⟩
  rw [unitsOf_eq_map hsingle, unitsOf_eq_map hsingle, unitsOf_eq_map hsingle, hdecode, hdecode,
    hdecode, List.append_assoc, List.map_append, List.map_append, Decode.decode_append _ hcut,
    hshape, List.append_assoc]

/-- What stands for no character is decoded as U+FFFD, and what stands around
it as it would be by itself. -/
theorem decode_malformed (h : e.Malformed before form after) :
    ∃ count, e.decode (e.unitsOf (before ++ form ++ after)) =
      e.decode (e.unitsOf before) ++ List.replicate (count + 1) replacement ++
        e.decode (e.unitsOf after) := by
  cases h with
  | sequence he hshape hnumber => exact decode_sequence he hshape hnumber before after
  | @high _ unit he hwhole hunit hafter =>
    have hlt : unit < 256 ^ e.unitWidth := by
      rcases he with rfl | rfl <;> exact Nat.lt_of_le_of_lt hunit.2 (by decide)
    have hnot : ¬ e.Continues unit := by
      have hle := hunit.2
      rcases he with rfl | rfl
      all_goals
        intro hcont
        have hge : 0xDC00 ≤ unit := hcont.1
        omega
    exact decode_alone hwhole (unitsOf_unitBytes_append hlt _)
      (Decode.decode_append_cons hlt hnot ..) (Decode.decode_high he hunit hafter)
  | @low _ unit he hwhole hunit hbefore =>
    have hlt : unit < 256 ^ e.unitWidth := by
      rcases he with rfl | rfl <;> exact Nat.lt_of_le_of_lt hunit.2 (by decide)
    have hge := hunit.1
    have hle := hunit.2
    have hscalar : scalar unit = replacement := by
      refine scalar_eq_replacement fun hvalid => ?_
      rcases hvalid with hvalid | hvalid
      · omega
      · omega
    refine decode_alone hwhole (unitsOf_unitBytes_append hlt _)
      (Decode.decode_append_of_getLast? he hbefore _) ?_
    refine Decode.decode_cons_replacement ?_ _
    rw [Decode.start_utf16 he, Decode.startUtf16, if_neg (by omega), hscalar]
  | @number _ unit he hwhole hlt hnumber =>
    simp only [List.mem_cons, List.not_mem_nil, or_false] at he
    have hstart : Decode.start e unit = .char replacement := by
      rw [← scalar_eq_replacement hnumber]
      rcases he with rfl | rfl | rfl | rfl | rfl | rfl <;> rfl
    have hnot : ¬ e.Continues unit := by
      rcases he with rfl | rfl | rfl | rfl | rfl | rfl <;> exact id
    exact decode_alone hwhole (unitsOf_unitBytes_append hlt _)
      (Decode.decode_append_cons hlt hnot ..) (Decode.decode_cons_replacement hstart _)
  | cut hwhole hne hlt =>
    have hwide : 1 < e.unitWidth := Nat.lt_of_le_of_lt (List.length_pos_iff.mpr hne) hlt
    refine decode_alone hwhole ?_ (Decode.decode_append_replacement ..)
      (Decode.decode_cons_replacement (start_replacement hwide) _)
    rw [List.append_nil, unitsOf_cut hne hlt, unitsOf_nil]

end Encoding

end Tabular
