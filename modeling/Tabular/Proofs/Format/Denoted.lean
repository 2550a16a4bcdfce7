/-
What escaped characters denote.

* `HexDigit`, `Number` — hexadecimal digits of either case, and the numbers
  that they stand for;
* `Denotes` — the escaped forms, each with the character that it denotes;
* `hexNumber?_eq_some_iff`, `unescape?_eq_some_iff` — reading accepts just
  these;
* `Delimiter.Stored`, `Delimiter.ofSetting?_eq_some_iff` — and so it does for
  delimiters, of which two are stored as words that denote no character;
* `Delimiter.escapes_exact` — every character has a form that denotes it.

Design notes: `Denotes` says what the forms are one by one.  That a form which
begins with a brace is not also one of two digits comes of the digits.
-/
import Mathlib.Data.Nat.Digits.Defs
import Tabular.Proofs.Format.Settings
import Tabular.Proofs.Text.Ascii

namespace Tabular

namespace Escape

/-- The hexadecimal digits, in lower and in upper case, with their values. -/
def hexDigitValues : List (Char × Nat) :=
  "0123456789abcdef".toList.zipIdx ++ "ABCDEF".toList.zipIdx 10

/-- A hexadecimal digit and its value. -/
def HexDigit (c : Char) (value : Nat) : Prop := (c, value) ∈ hexDigitValues

instance (c : Char) (value : Nat) : Decidable (HexDigit c value) :=
  inferInstanceAs (Decidable (_ ∈ _))

/-- The number that hexadecimal digits stand for, most significant first. -/
def Number (digits : List Char) (n : Nat) : Prop :=
  ∃ values, List.Forall₂ HexDigit digits.reverse values ∧ Nat.ofDigits 16 values = n

/-- The letters that denote a character after a backslash. -/
def letters : List (Char × Char) :=
  [('t', '\t'), ('n', '\n'), ('r', '\r'), ('\\', '\\'), ('0', '\x00')]

/-- The escaped forms, and the character that each of them denotes. -/
inductive Denotes : List Char → Char → Prop
  | plain {c : Char} (h : c ≠ '\\') : Denotes [c] c
  | letter {l c : Char} (h : (l, c) ∈ letters) : Denotes ['\\', l] c
  | two {digits : List Char} {c : Char} (hlen : digits.length = 2) (h : Number digits c.toNat) :
      Denotes ('\\' :: 'x' :: digits) c
  | four {digits : List Char} {c : Char} (hlen : digits.length = 4) (h : Number digits c.toNat) :
      Denotes ('\\' :: 'u' :: digits) c
  | braced {digits : List Char} {c : Char} (hpos : 1 ≤ digits.length) (hlen : digits.length ≤ 6)
      (h : Number digits c.toNat) : Denotes ('\\' :: 'x' :: '\x7b' :: (digits ++ ['\x7d'])) c

/-! ### Digits and numbers -/

theorem hexDigit?_eq_some_iff {c : Char} {value : Nat} :
    hexDigit? c = some value ↔ HexDigit c value := by
  constructor
  · intro h
    have hle : ∀ d : Char, d.toNat < 103 → 103 ≤ c.toNat → ¬ c ≤ d := by
      intro d hd hc hcd
      have : c.toNat ≤ d.toNat := hcd
      omega
    have hlt : c.toNat < 103 := by
      by_contra hge
      have hge := Nat.le_of_not_lt hge
      rw [hexDigit?, if_neg fun h => hle '9' (by decide) hge h.2,
        if_neg fun h => hle 'f' (by decide) hge h.2,
        if_neg fun h => hle 'F' (by decide) hge h.2] at h
      cases h
    -- All digits are among the first characters, which can be gone through.
    have hall : ∀ n < 103, ∀ value ∈ hexDigit? (Char.ofNat n), HexDigit (Char.ofNat n) value := by
      decide
    have hc := hall c.toNat hlt value
    rw [Char.ofNat_toNat] at hc
    exact hc h
  · have hall : ∀ p ∈ hexDigitValues, hexDigit? p.1 = some p.2 := by decide
    exact hall (c, value)

theorem number_nil_iff {n : Nat} : Number [] n ↔ 0 = n := by
  constructor
  · rintro ⟨values, hvalues, rfl⟩
    cases hvalues
    rfl
  · rintro rfl
    exact ⟨[], .nil, rfl⟩

theorem number_concat_iff {digits : List Char} {c : Char} {n : Nat} :
    Number (digits ++ [c]) n ↔
      ∃ high, Number digits high ∧ ∃ value, HexDigit c value ∧ high * 16 + value = n := by
  rw [Number, List.reverse_concat]
  constructor
  · rintro ⟨values, hvalues, rfl⟩
    cases hvalues with
    | @cons _ value _ values hc hdigits =>
      refine ⟨_, ⟨values, hdigits, rfl⟩, value, hc, ?_⟩
      rw [Nat.ofDigits_cons]
      omega
  · rintro ⟨_, ⟨values, hdigits, rfl⟩, value, hc, rfl⟩
    refine ⟨value :: values, .cons hc hdigits, ?_⟩
    rw [Nat.ofDigits_cons]
    omega

theorem hexNumber?_eq_some_iff {digits : List Char} {n : Nat} :
    hexNumber? digits = some n ↔ Number digits n := by
  -- From the last digit on, which counts least.
  induction digits using List.reverseRecOn generalizing n with
  | nil =>
    rw [number_nil_iff]
    exact Option.some_inj
  | append_singleton digits c ih =>
    rw [hexNumber?_concat, number_concat_iff]
    simp only [Option.bind_eq_some_iff, Option.map_eq_some_iff, ih, hexDigit?_eq_some_iff]

/-- Digits stand for a character if their number is its code point. -/
theorem hexChar?_eq_some_iff {digits : List Char} {c : Char} :
    hexChar? digits = some c ↔ Number digits c.toNat := by
  refine ⟨fun h => ?_, fun h => hexChar?_of_hexNumber? (hexNumber?_eq_some_iff.mpr h)⟩
  obtain ⟨code, hcode, hc⟩ := Option.bind_eq_some_iff.mp h
  split at hc
  · rename_i hvalid
    obtain rfl := Option.some.inj hc
    rw [toNat_ofNat hvalid]
    exact hexNumber?_eq_some_iff.mp hcode
  · cases hc

/-! ### The forms -/

theorem beforeBrace?_eq_some_iff {cs digits : List Char} :
    beforeBrace? cs = some digits ↔ cs = digits ++ ['\x7d'] := by
  rw [beforeBrace?]
  constructor
  · intro h
    split at h
    · rename_i hlast
      obtain rfl := Option.some.inj h
      exact (List.dropLast_append_getLast? _ hlast).symm
    · cases h
  · rintro rfl
    rw [List.getLast?_concat, if_pos rfl, List.dropLast_concat]

/-- What is accepted after a backslash is the rest of a form. -/
theorem denotes_of_afterBackslash? {form : List Char} {c : Char}
    (h : afterBackslash? form = some c) : Denotes ('\\' :: form) c := by
  unfold afterBackslash? at h
  split at h
  case h_1 | h_2 | h_3 | h_4 | h_5 =>
    obtain rfl := Option.some.inj h
    exact .letter (by decide)
  case h_6 cs =>
    obtain ⟨digits, hbefore, hdigits⟩ := Option.bind_eq_some_iff.mp h
    obtain rfl := beforeBrace?_eq_some_iff.mp hbefore
    obtain ⟨⟨hpos, hlen⟩, hnumber⟩ := Option.ite_none_right_eq_some.mp hdigits
    exact .braced hpos hlen (hexChar?_eq_some_iff.mp hnumber)
  case h_7 digits _ =>
    obtain ⟨hlen, hnumber⟩ := Option.ite_none_right_eq_some.mp h
    exact .two hlen (hexChar?_eq_some_iff.mp hnumber)
  case h_8 digits =>
    obtain ⟨hlen, hnumber⟩ := Option.ite_none_right_eq_some.mp h
    exact .four hlen (hexChar?_eq_some_iff.mp hnumber)
  case h_9 => cases h

theorem afterBackslash?_of_letter {l c : Char} (h : (l, c) ∈ letters) :
    afterBackslash? [l] = some c := by
  have hall : ∀ p ∈ letters, afterBackslash? [p.1] = some p.2 := by decide
  exact hall (l, c) h

/-- Reading accepts the escaped forms, and nothing else. -/
theorem unescape?_eq_some_iff {form : List Char} {c : Char} :
    unescape? form = some c ↔ Denotes form c := by
  constructor
  · intro h
    unfold unescape? at h
    split at h
    case h_1 form => exact denotes_of_afterBackslash? h
    case h_2 d hd =>
      obtain rfl := Option.some.inj h
      exact .plain hd
    case h_3 => cases h
  · intro h
    cases h with
    | plain hc =>
      rw [unescape?]
      exact hc
    | letter hl => exact afterBackslash?_of_letter hl
    | two hlen hnumber => exact afterBackslash?_digits hlen (hexNumber?_eq_some_iff.mpr hnumber)
    | four hlen hnumber =>
      rw [unescape?, afterBackslash?, if_pos hlen]
      exact hexChar?_eq_some_iff.mpr hnumber
    | braced hpos hlen hnumber =>
      exact afterBackslash?_braced hpos hlen (hexNumber?_eq_some_iff.mpr hnumber)

/-- What comes near to a form is none. -/
example :
    ["", "ab", "\\", "\\q", "\\x+1", "\\x1", "\\x\x7b\x7d", "\\x\x7b\x7b41\x7d\x7d", "\\x\x7b41",
      "\\uD800", "\\x\x7b110000\x7d", "\\x\x7b0000041\x7d"].all
      fun value => (unescape? value.toList).isNone := by
  decide

/-- What a character is escaped as denotes it. -/
theorem denotes_escape (c : Char) : Denotes (escape c) c :=
  unescape?_eq_some_iff.mp (unescape?_escape c)

/-- No form is the word for no character, or for one to be detected. -/
theorem Denotes.ne_word {c : Char} {value : String} (h : Denotes value.toList c) :
    value ≠ "" ∧ value ≠ "auto" := by
  have hsome := unescape?_eq_some_iff.mpr h
  constructor
  · rintro rfl
    cases hsome
  · rintro rfl
    cases hsome

end Escape

namespace Delimiter

/-- The texts that a delimiter may be stored as. -/
inductive Stored : Delimiter → String → Prop
  | off : Stored off ""
  | auto : Stored auto "auto"
  | char {c : Char} {value : String} (h : Escape.Denotes value.toList c) : Stored (char c) value

theorem ofSetting?_eq_some_iff {value : String} {d : Delimiter} :
    ofSetting? value = some d ↔ Stored d value := by
  rw [ofSetting?]
  constructor
  · intro h
    split at h
    · rename_i hoff
      obtain rfl := Option.some.inj h
      rw [hoff]
      exact .off
    · split at h
      · rename_i hauto
        obtain rfl := Option.some.inj h
        rw [hauto]
        exact .auto
      · obtain ⟨c, hc, rfl⟩ := Option.map_eq_some_iff.mp h
        exact .char (Escape.unescape?_eq_some_iff.mp hc)
  · intro h
    cases h with
    | off => rfl
    | auto => rfl
    | char h =>
      obtain ⟨hoff, hauto⟩ := h.ne_word
      rw [if_neg hoff, if_neg hauto, Escape.unescape?_eq_some_iff.mpr h, Option.map_some]

/-- Reading an escaped character accepts its forms and nothing else, and so
does reading a stored delimiter.  Every character has such a form, and none of
its forms is that of no character, or of one to be detected. -/
theorem escapes_exact :
    (∀ (value : String) (c : Char),
      Escape.unescape? value.toList = some c ↔ Escape.Denotes value.toList c) ∧
    (∀ (value : String) (d : Delimiter), ofSetting? value = some d ↔ Stored d value) ∧
    ∀ c : Char, Escape.Denotes (Escape.escape c) c ∧ Stored (char c) (char c).setting ∧
      (∀ value : String, Stored (char c) value → value ≠ off.setting ∧ value ≠ auto.setting) := by
  refine ⟨fun _ _ => Escape.unescape?_eq_some_iff, fun _ _ => ofSetting?_eq_some_iff, fun c => ?_⟩
  refine ⟨Escape.denotes_escape c, ofSetting?_eq_some_iff.mp (ofSetting?_setting _), ?_⟩
  intro value h
  cases h with
  | char h => exact h.ne_word

end Delimiter

end Tabular
