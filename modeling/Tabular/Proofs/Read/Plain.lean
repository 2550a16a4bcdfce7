/-
Characters that a text shows as they are.

* `Encoding.isPlain` — a character that is decoded just where a unit looks like
  it;
* `Encoding.start_rawChar`, `Encoding.rawChar_of_start` — such a unit is a
  character of its own, and so is a unit that is decoded as the character;
* `Encoding.not_isPlain_of_feed`, `Encoding.not_isPlain_of_complete` — longer
  characters, and the units that go on with them, are not plain;
* `Dialect.PlainIn` — a dialect that heeds only such characters;
* `Dialect.LinesPlainIn` — a dialect that finds lines by such characters.

Design notes: a unit that is no code point looks like a question mark and is
decoded as U+FFFD, so where there are such units neither of the two is plain.
-/
import Tabular.Proofs.Read.Boundary
import Tabular.Proofs.Read.Spelled

namespace Tabular

/-- Whether a character is decoded just where a unit looks like it. -/
def Encoding.isPlain (e : Encoding) (c : Char) : Bool :=
  match e with
  | latin1 => true
  | unknown | utf8 => c.toNat < 0x80
  | windows1252 => Windows1252.byte? c == if c.toNat ≤ 0xFF then some c.toNat else none
  | utf16le | utf16be => c.toNat ≤ 0xFFFF && c != '?' && c != replacement
  | ucs2le | ucs2be | utf32le | utf32be | ucs4le | ucs4be => c != '?' && c != replacement

theorem rawChar_of_valid {unit : Nat} (h : unit.isValidChar) : rawChar unit = Char.ofNat unit := by
  rw [rawChar, scalar?, if_pos h]
  rfl

theorem rawChar_of_not_valid {unit : Nat} (h : ¬ unit.isValidChar) : rawChar unit = '?' := by
  rw [rawChar, scalar?, if_neg h]
  rfl

namespace Encoding

open Decode

variable {e : Encoding} {unit : Nat} {c : Char} {v : Unfinished}

/-- ASCII is plain, but for the question mark. -/
theorem isPlain_ascii (e : Encoding) (h : c.toNat < 0x80) (hc : c ≠ '?') : e.isPlain c := by
  have hreplacement : c ≠ replacement := by
    rintro rfl
    exact absurd h (by decide)
  cases e with
  | latin1 => rfl
  | unknown | utf8 => exact decide_eq_true h
  | windows1252 =>
    have hbyte : Windows1252.byte? c = some c.toNat := if_pos (.inl h)
    rw [isPlain, hbyte, if_pos (by omega)]
    exact beq_self_eq_true _
  | utf16le | utf16be =>
    simp only [isPlain, Bool.and_eq_true, bne_iff_ne, decide_eq_true_eq]
    exact ⟨⟨by omega, hc⟩, hreplacement⟩
  | ucs2le | ucs2be | utf32le | utf32be | ucs4le | ucs4be =>
    simp only [isPlain, Bool.and_eq_true, bne_iff_ne]
    exact ⟨hc, hreplacement⟩

theorem forall_isPlain (e : Encoding) {cs : List Char}
    (h : cs.all fun c => c.toNat < 0x80 && c != '?') : ∀ c ∈ cs, e.isPlain c := by
  intro c hc
  have hascii := List.all_eq_true.mp h c hc
  rw [Bool.and_eq_true, decide_eq_true_eq, bne_iff_ne] at hascii
  exact e.isPlain_ascii hascii.1 hascii.2

/-- Space and tab are plain. -/
theorem isPlain_whitespace (e : Encoding) : ∀ w ∈ CellBuffer.empty.whitespace, e.isPlain w :=
  e.forall_isPlain (by decide)

theorem isValidChar_of_byte {unit : Nat} (h : unit < 256) : unit.isValidChar :=
  isValidChar_of_lt (by omega)

/-- A unit that looks like a plain character is that character. -/
theorem start_rawChar (hu : unit < 256 ^ e.unitWidth) (h : e.isPlain (rawChar unit)) :
    start e unit = .char (rawChar unit) := by
  -- What looks like a question mark may be no code point, and is not plain then.
  have hvalid : (e.isPlain '?' = false) → unit.isValidChar := by
    intro hquestion
    by_contra hnot
    rw [rawChar_of_not_valid hnot, hquestion] at h
    exact Bool.false_ne_true h
  have hscalar : unit.isValidChar → scalar unit = rawChar unit := fun hv =>
    (scalar_eq hv).trans (rawChar_of_valid hv).symm
  cases e with
  | latin1 => exact congrArg Decoded.char (hscalar (isValidChar_of_byte hu))
  | unknown | utf8 =>
    have hv := isValidChar_of_byte hu
    rw [rawChar_of_valid hv] at h ⊢
    simp only [isPlain, toNat_ofNat hv, decide_eq_true_eq] at h
    exact start_ascii _ h
  | windows1252 =>
    have hlt : unit < 256 := hu
    have hv := isValidChar_of_byte hlt
    rw [rawChar_of_valid hv] at h ⊢
    rw [isPlain, toNat_ofNat hv, if_pos (by omega), beq_iff_eq] at h
    show Decoded.char (Windows1252.char (unit % 256)) = _
    rw [Nat.mod_eq_of_lt hlt, (Windows1252.char_of_byte? h).2]
  | utf16le | utf16be =>
    have hv := hvalid rfl
    show startUtf16 unit = _
    have hsurrogate : ¬ (0xD800 ≤ unit ∧ unit ≤ 0xDBFF) := by
      rcases hv with hlt | ⟨hlt, -⟩ <;> omega
    rw [startUtf16, if_neg hsurrogate, hscalar hv]
  | ucs2le | ucs2be | utf32le | utf32be | ucs4le | ucs4be =>
    exact congrArg Decoded.char (hscalar (hvalid rfl))

/-- A unit that is a plain character looks like it. -/
theorem rawChar_of_start (hu : unit < 256 ^ e.unitWidth) (h : e.isPlain c)
    (hs : start e unit = .char c) : rawChar unit = c := by
  have hscalar : (e.isPlain replacement = false) → scalar unit = c → rawChar unit = c := by
    rintro hreplacement rfl
    by_cases hv : unit.isValidChar
    · rw [scalar_eq hv, rawChar_of_valid hv]
    · rw [scalar_eq_replacement hv, hreplacement] at h
      exact absurd h Bool.false_ne_true
  cases e with
  | latin1 =>
    obtain rfl := Decoded.char.inj hs
    have hv := isValidChar_of_byte hu
    rw [scalar_eq hv, rawChar_of_valid hv]
  | unknown | utf8 =>
    have hs : startUtf8 unit = .char c := hs
    rw [startUtf8] at hs
    split_ifs at hs
    · exact hscalar rfl (Decoded.char.inj hs)
    · rw [← Decoded.char.inj hs] at h
      exact absurd h (by decide)
  | windows1252 =>
    have hlt : unit < 256 := hu
    have hv := isValidChar_of_byte hlt
    have hs : Decoded.char (Windows1252.char (unit % 256)) = .char c := hs
    rw [Nat.mod_eq_of_lt hlt] at hs
    obtain rfl := Decoded.char.inj hs
    rw [isPlain, Windows1252.byte?_char hlt, beq_iff_eq] at h
    split_ifs at h
    rw [rawChar_of_valid hv]
    conv_lhs => rw [Option.some.inj h]
    exact Char.ofNat_toNat _
  | utf16le | utf16be =>
    have hs : startUtf16 unit = .char c := hs
    rw [startUtf16] at hs
    split_ifs at hs
    exact hscalar rfl (Decoded.char.inj hs)
  | ucs2le | ucs2be | utf32le | utf32be | ucs4le | ucs4be =>
    exact hscalar rfl (Decoded.char.inj hs)

/-- What a unit of several begins looks like no plain character. -/
theorem not_isPlain_of_more (hu : unit < 256 ^ e.unitWidth) (h : start e unit = .more v) :
    ¬ e.isPlain (rawChar unit) := by
  intro hplain
  rw [start_rawChar hu hplain] at h
  exact Decoded.noConfusion h

/-- Nor does a unit that goes on with a character. -/
theorem not_isPlain_of_feed (hv : ArisesIn e v) (hu : unit < 256 ^ e.unitWidth) {d : Decoded}
    (h : v.feed unit = some d) : ¬ e.isPlain (rawChar unit) := by
  rcases hv.cases_encoding with ⟨he, more, code, least, rfl⟩ | ⟨he, high, rfl⟩
  · have hle := le_of_feed h
    rcases he with rfl | rfl <;>
    · rw [rawChar_of_valid (isValidChar_of_byte hu), isPlain, toNat_ofNat (isValidChar_of_byte hu)]
      simpa using hle
  · rw [Unfinished.feed] at h
    split at h
    · rename_i hlow
      have hnot : ¬ unit.isValidChar := by
        rintro (hlt | ⟨hgt, -⟩) <;> omega
      rw [rawChar_of_not_valid hnot]
      rcases he with rfl | rfl <;> decide
    · exact absurd h (by simp)

/-- What is unfinished in UTF-8 does not become ASCII. -/
theorem least_of_arisesIn {more code least : Nat} (hv : ArisesIn e (.utf8 more code least)) :
    0x80 ≤ least := by
  generalize hw : Unfinished.utf8 more code least = w at hv
  induction hv generalizing more code least with
  | @start unit w h =>
    subst hw
    have hutf8 : startUtf8 unit = .more (.utf8 more code least) → 0x80 ≤ least := by
      intro hs
      rw [startUtf8] at hs
      split_ifs at hs <;>
      · obtain ⟨-, -, rfl⟩ := Unfinished.utf8.inj (Decoded.more.inj hs)
        omega
    have hutf16 : startUtf16 unit ≠ .more (.utf8 more code least) := by
      intro hs
      rw [startUtf16] at hs
      split_ifs at hs
      exact Unfinished.noConfusion (Decoded.more.inj hs)
    cases e with
    | unknown | utf8 => exact hutf8 h
    | utf16le | utf16be => exact absurd h hutf16
    | latin1 | windows1252 | ucs2le | ucs2be | utf32le | utf32be | ucs4le | ucs4be =>
      exact absurd h (by simp [Decode.start])
  | @feed unit w w' hw' h ih =>
    subst hw
    cases w with
    | utf8 more' code' least' =>
      rw [Unfinished.feed] at h
      split at h
      · cases more' with
        | zero => exact absurd h (by simp)
        | succ more' =>
          obtain ⟨-, -, rfl⟩ := Unfinished.utf8.inj (Decoded.more.inj (Option.some.inj h))
          exact ih rfl
      · exact absurd h (by simp)
    | surrogate high =>
      rw [Unfinished.feed] at h
      split at h <;> exact absurd h (by simp)

/-- U+FFFD is not plain where it stands for what is unfinished. -/
theorem not_isPlain_replacement (hv : ArisesIn e v) : ¬ e.isPlain replacement := by
  rcases hv.cases_encoding with ⟨he, -⟩ | ⟨he, -⟩ <;> rcases he with rfl | rfl <;> decide

/-- A character of several units is not plain. -/
theorem not_isPlain_of_complete (hv : ArisesIn e v) (h : v.feed unit = some (.char c)) :
    ¬ e.isPlain c := by
  rcases hv.cases_encoding with ⟨he, more, code, least, rfl⟩ | ⟨he, high, rfl⟩
  · have hleast := least_of_arisesIn hv
    have hle : 0x80 ≤ c.toNat := by
      rw [Unfinished.feed] at h
      split at h
      · cases more with
        | zero =>
          rw [← Decoded.char.inj (Option.some.inj h)]
          split_ifs
          · decide
          · exact le_toNat_scalar (by omega)
        | succ more => exact absurd h (by simp)
      · exact absurd h (by simp)
    rcases he with rfl | rfl <;> simpa [isPlain] using hle
  · rw [Unfinished.feed] at h
    split at h
    · obtain rfl := Decoded.char.inj (Option.some.inj h)
      generalize hcode : 0x10000 + (high - 0xD800) * 1024 + (unit - 0xDC00) = code
      by_cases hvalid : code.isValidChar
      · have hbeyond : ¬ (scalar code).toNat ≤ 0xFFFF := by
          rw [scalar_eq hvalid, toNat_ofNat hvalid]
          omega
        rcases he with rfl | rfl <;> simp [isPlain, hbeyond]
      · rw [scalar_eq_replacement hvalid]
        exact not_isPlain_replacement hv
    · exact absurd h (by simp)

end Encoding

/-! ### Dialects -/

/-- Every character that the dialect heeds is plain.  Those that it may detect
are in every encoding. -/
structure Dialect.PlainIn (d : Dialect) (e : Encoding) : Prop where
  separator : ∀ c, d.separator = .char c → e.isPlain c
  enclosing : ∀ c, d.enclosing = .char c → e.isPlain c
  lineEnd : ∀ c, d.lineEnd = .char c → e.isPlain c

/-- Every character that may tell where a line ends is plain.  Where there are no
quotes, it makes no difference how the line is separated. -/
structure Dialect.LinesPlainIn (d : Dialect) (e : Encoding) : Prop where
  separator : d.enclosing ≠ .off → ∀ c, d.separator = .char c → e.isPlain c
  enclosing : ∀ c, d.enclosing = .char c → e.isPlain c
  lineEnd : ∀ c, d.lineEnd = .char c → e.isPlain c

namespace Dialect

variable {d d' : Dialect} {e : Encoding} {c : Char}

theorem isPlain_of_accepts {candidates : List Char} (hcandidates : ∀ x ∈ candidates, e.isPlain x)
    {x : Delimiter} (h : ∀ c, x = .char c → e.isPlain c) (hc : x.accepts candidates c) :
    e.isPlain c := by
  cases x with
  | char x => exact h c (congrArg _ (by simpa [Delimiter.accepts] using hc))
  | off => exact absurd hc (by simp [Delimiter.accepts])
  | auto => exact hcandidates c (by simpa [Delimiter.accepts] using hc)

theorem isPlain_of_learnsTo {candidates : List Char} (hcandidates : ∀ x ∈ candidates, e.isPlain x)
    {x y : Delimiter} (h : ∀ c, x = .char c → e.isPlain c)
    (hl : Delimiter.LearnsTo candidates x y) : ∀ c, y = .char c → e.isPlain c := by
  rintro c hc
  rcases hl with rfl | ⟨-, z, hz, rfl⟩
  · exact h c hc
  · exact Delimiter.char.inj hc ▸ hcandidates z hz

/-- What may be detected is plain. -/
theorem isPlain_candidates (e : Encoding) :
    (∀ x ∈ Delimiter.separatorCandidates, e.isPlain x) ∧
      (∀ x ∈ Delimiter.enclosingCandidates, e.isPlain x) ∧
      ∀ x ∈ Delimiter.lineEndCandidates, e.isPlain x :=
  ⟨e.forall_isPlain (by decide), e.forall_isPlain (by decide), e.forall_isPlain (by decide)⟩

namespace LinesPlainIn

theorem plainIn (h : d.LinesPlainIn e) (hne : d.enclosing ≠ .off) : d.PlainIn e :=
  ⟨h.separator hne, h.enclosing, h.lineEnd⟩

theorem opens?_eq_none (h : d.LinesPlainIn e) (hc : ¬ e.isPlain c) : d.opens? c = none :=
  if_neg fun hq => hc (isPlain_of_accepts (isPlain_candidates e).2.1 h.enclosing hq)

theorem isPlain_of_opens (h : d.LinesPlainIn e) (ho : d.opens? c = some d') : e.isPlain c := by
  by_contra hc
  rw [h.opens?_eq_none hc] at ho
  exact absurd ho (by simp)

theorem not_accepts (h : d.LinesPlainIn e) (hc : ¬ e.isPlain c) :
    ¬ d.lineEnd.accepts Delimiter.lineEndCandidates c :=
  fun hl => hc (isPlain_of_accepts (isPlain_candidates e).2.2 h.lineEnd hl)

/-- A character that is not plain does not end a line, and nothing is learned if
it separates cells. -/
theorem terminator?_of_not_plain (h : d.LinesPlainIn e) (hc : ¬ e.isPlain c) :
    d.terminator? c = none ∨ d.terminator? c = some (.separator, d) := by
  rw [terminator?, if_neg (h.not_accepts hc)]
  split_ifs with hs
  · refine .inr (congrArg some (Prod.ext rfl ?_))
    cases hsep : d.separator with
    | char x =>
      rw [hsep] at hs
      obtain rfl : x = c := by simpa [Delimiter.accepts] using hs
      rw [← hsep]
    | off =>
      rw [hsep] at hs
      exact absurd hs (by simp [Delimiter.accepts])
    | auto =>
      rw [hsep] at hs
      have hmem : c ∈ Delimiter.separatorCandidates := by simpa [Delimiter.accepts] using hs
      exact absurd ((isPlain_candidates e).1 c hmem) hc
  · exact .inl rfl

/-- What is learned is plain as well. -/
theorem learns (h : d.LinesPlainIn e) (hl : d.LearnsTo d') : d'.LinesPlainIn e := by
  obtain ⟨hseparators, henclosings, hlineEnds⟩ := isPlain_candidates e
  exact ⟨fun hne => isPlain_of_learnsTo hseparators
      (h.separator fun hoff => hne (hl.enclosing.off_iff.mpr hoff)) hl.separator,
    isPlain_of_learnsTo henclosings h.enclosing hl.enclosing,
    isPlain_of_learnsTo hlineEnds h.lineEnd hl.lineEnd⟩

end LinesPlainIn

namespace PlainIn

theorem lines (h : d.PlainIn e) : d.LinesPlainIn e := ⟨fun _ => h.separator, h.enclosing, h.lineEnd⟩

/-- What ends cells is plain. -/
theorem terminator?_eq_none (h : d.PlainIn e) (hc : ¬ e.isPlain c) : d.terminator? c = none := by
  have hs : ¬ d.separator.accepts Delimiter.separatorCandidates c :=
    fun hs => hc (isPlain_of_accepts (isPlain_candidates e).1 h.separator hs)
  rw [terminator?, if_neg hs, if_neg (h.lines.not_accepts hc)]

/-- What is learned is plain as well. -/
theorem learns (h : d.PlainIn e) (hl : d.LearnsTo d') : d'.PlainIn e :=
  ⟨isPlain_of_learnsTo (isPlain_candidates e).1 h.separator hl.separator,
    (h.lines.learns hl).enclosing, (h.lines.learns hl).lineEnd⟩

end PlainIn

end Dialect

end Tabular
