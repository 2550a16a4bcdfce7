/-
When a run of bytes taken as a whole reads as it does character by character.

* `Lossy.BreaksLead` — the second bytes that one reader takes into a sequence
  and the other does not;
* `Lossy.utf8From_eq_decode` — where no such byte follows its lead byte, both
  readers give the same text;
* `Encoding.decodeBytes_eq_decode` — the same for every encoding of one byte a
  unit.

Design notes: the two readers are in step.  `InStep` relates what one has
begun to what the other has not finished, and keeps the bound that shows that
no sequence turns out to be overlong.
-/
import Mathlib.Algebra.Order.Ring.Nat
import Mathlib.Data.List.Chain
import Tabular.Text.Lossy
import Tabular.Proofs.Text.Ascii

namespace Tabular

namespace Lossy

/-- A continuation byte that cannot follow this lead byte: it would make an
overlong form, a surrogate, or a number beyond the last character. -/
def BreaksLead (lead second : Nat) : Prop :=
  lead = 0xE0 ∧ 0x80 ≤ second ∧ second ≤ 0x9F ∨ lead = 0xED ∧ 0xA0 ≤ second ∧ second ≤ 0xBF ∨
    lead = 0xF0 ∧ 0x80 ≤ second ∧ second ≤ 0x8F ∨ lead = 0xF4 ∧ 0x90 ≤ second ∧ second ≤ 0xBF

instance (lead second : Nat) : Decidable (BreaksLead lead second) :=
  inferInstanceAs (Decidable (_ ∨ _ ∨ _ ∨ _))

/-- No lead byte is followed by a byte that breaks it. -/
def NoBrokenLead (bytes : List UInt8) : Prop :=
  bytes.IsChain fun lead second => ¬ BreaksLead lead.toNat second.toNat

instance (bytes : List UInt8) : Decidable (NoBrokenLead bytes) :=
  inferInstanceAs (Decidable (bytes.IsChain _))

/-- What both readers hold after the byte `last`, either nothing or the same
beginning of a sequence. -/
inductive InStep (last : Nat) : Option Utf8Beginning → Option Unfinished → Prop
  | between : InStep last none none
  | within {b : Utf8Beginning} {least : Nat}
      (low : 0x80 ≤ b.low) (high : b.high ≤ 0xBF)
      (next : ∀ byte, ¬ BreaksLead last byte → 0x80 ≤ byte → byte ≤ 0xBF →
        b.low ≤ byte ∧ byte ≤ b.high)
      -- Whatever follows, the sequence will not be overlong.
      (bound : ∀ byte, b.low ≤ byte → byte ≤ b.high →
        least ≤ (b.code * 64 + byte % 64) * 64 ^ b.more) :
      InStep last (some b) (some (.utf8 b.more b.code least))

theorem isContinuation_iff {byte : Nat} (h : byte < 256) :
    Decode.isContinuation byte ↔ 0x80 ≤ byte ∧ byte ≤ 0xBF := by
  rw [Decode.isContinuation, beq_iff_eq]
  omega

/-- From nothing, a byte leads both readers to the same. -/
theorem start_inStep {byte : Nat} :
    (start byte).1 = (Decode.emit (Decode.startUtf8 byte)).1 ∧
      InStep byte (start byte).2 (Decode.emit (Decode.startUtf8 byte)).2 := by
  unfold start Decode.startUtf8
  by_cases h1 : byte ≤ 0x7F
  · rw [if_pos h1, if_pos h1]
    exact ⟨rfl, .between⟩
  rw [if_neg h1, if_neg h1]
  by_cases h2 : 0xC2 ≤ byte ∧ byte ≤ 0xDF
  · rw [if_pos h2, if_pos h2]
    refine ⟨rfl, .within (Nat.le_refl _) (Nat.le_refl _) (fun x _ h h' => ⟨h, h'⟩) ?_⟩
    intro x _ _
    simp only [Nat.pow_zero]
    omega
  rw [if_neg h2, if_neg h2]
  by_cases h3 : 0xE0 ≤ byte ∧ byte ≤ 0xEF
  · rw [if_pos h3, if_pos h3]
    refine ⟨rfl, .within (by dsimp only; split <;> omega) (by dsimp only; split <;> omega) ?_ ?_⟩
    · intro x hx _ _
      unfold BreaksLead at hx
      dsimp only
      constructor <;> split <;> omega
    · intro x hlow hhigh
      dsimp only at hlow hhigh ⊢
      rw [Nat.pow_one]
      split at hlow <;> split at hhigh <;> omega
  rw [if_neg h3, if_neg h3]
  by_cases h4 : 0xF0 ≤ byte ∧ byte ≤ 0xF4
  · rw [if_pos h4, if_pos h4]
    refine ⟨rfl, .within (by dsimp only; split <;> omega) (by dsimp only; split <;> omega) ?_ ?_⟩
    · intro x hx _ _
      unfold BreaksLead at hx
      dsimp only
      constructor <;> split <;> omega
    · intro x hlow hhigh
      dsimp only at hlow hhigh ⊢
      rw [show (64 : Nat) ^ 2 = 4096 from rfl]
      split at hlow <;> split at hhigh <;> omega
  rw [if_neg h4, if_neg h4]
  exact ⟨rfl, .between⟩

/-- A byte that does not break the one before it leads both readers on in
step. -/
theorem advance_inStep {last byte : Nat} (hb : byte < 256) {b : Option Utf8Beginning}
    {v : Option Unfinished} (h : InStep last b v) (hl : ¬ BreaksLead last byte) :
    (advance byte b).1 = (Decode.advance .utf8 byte v).1 ∧
      InStep byte (advance byte b).2 (Decode.advance .utf8 byte v).2 := by
  cases h with
  | between => exact start_inStep
  | @within b least low high next bound =>
    rw [advance, Decode.advance, Unfinished.feed]
    by_cases hc : b.low ≤ byte ∧ byte ≤ b.high
    · have hcont : Decode.isContinuation byte := (isContinuation_iff hb).mpr ⟨by omega, by omega⟩
      rw [if_pos hc, if_pos hcont]
      have hbound := bound byte hc.1 hc.2
      obtain ⟨lo, hi, more, code⟩ := b
      dsimp only at hbound ⊢
      cases more with
      | zero =>
        rw [Nat.pow_zero, Nat.mul_one] at hbound
        rw [if_neg (Nat.not_lt.mpr hbound)]
        exact ⟨rfl, .between⟩
      | succ more =>
        refine ⟨rfl, .within (Nat.le_refl _) (Nat.le_refl _) (fun x _ h h' => ⟨h, h'⟩) ?_⟩
        intro x _ _
        -- Going on can only make the number greater.
        calc least ≤ (code * 64 + byte % 64) * 64 ^ (more + 1) := hbound
          _ = (code * 64 + byte % 64) * 64 * 64 ^ more := by rw [Nat.pow_succ', Nat.mul_assoc]
          _ ≤ ((code * 64 + byte % 64) * 64 + x % 64) * 64 ^ more :=
            Nat.mul_le_mul_right _ (Nat.le_add_right _ _)
    · have hcont : ¬ Decode.isContinuation byte := by
        rw [isContinuation_iff hb]
        rintro ⟨hge, hle⟩
        exact hc (next byte hl hge hle)
      rw [if_neg hc, if_neg hcont]
      exact ⟨by rw [start_inStep.1]; rfl, start_inStep.2⟩

theorem utf8From_inStep {last : Nat} {b : Option Utf8Beginning} {v : Option Unfinished}
    (h : InStep last b v) {bytes : List UInt8} (hn : NoBrokenLead bytes)
    (hl : ∀ byte ∈ bytes.head?, ¬ BreaksLead last byte.toNat) :
    utf8From b bytes = Decode.decodeFrom .utf8 v (bytes.map UInt8.toNat) := by
  induction bytes generalizing last b v with
  | nil =>
    cases h with
    | between => rfl
    | within => rfl
  | cons byte bytes ih =>
    obtain ⟨hchars, hstep⟩ := advance_inStep byte.toNat_lt h (hl byte rfl)
    rw [NoBrokenLead, List.isChain_cons] at hn
    rw [utf8From, List.map_cons, Decode.decodeFrom, hchars, ih hstep hn.2 hn.1]

/-- Where no lead byte is broken, the text of the whole is the text of its
characters. -/
theorem utf8From_eq_decode {bytes : List UInt8} (h : NoBrokenLead bytes) :
    utf8From none bytes = Encoding.utf8.decode (bytes.map UInt8.toNat) := by
  have hfirst : ∀ byte ∈ bytes.head?, ¬ BreaksLead 0 byte.toNat := by
    intro byte _ hbreaks
    unfold BreaksLead at hbreaks
    omega
  exact utf8From_inStep .between h hfirst

theorem NoBrokenLead.of_part {bytes part : List UInt8} (h : NoBrokenLead bytes)
    (hp : part <:+: bytes) : NoBrokenLead part :=
  List.IsChain.infix h hp

end Lossy

theorem decode_map_start {e : Encoding} {char : UInt8 → Char}
    (h : ∀ b : UInt8, Decode.start e b.toNat = .char (char b)) (bytes : List UInt8) :
    e.decode (bytes.map UInt8.toNat) = bytes.map char := by
  induction bytes with
  | nil => rfl
  | cons b bytes ih =>
    rw [List.map_cons, List.map_cons, ← ih]
    exact Decode.decodeFrom_char (h b)

/-- Where no encoding is known, units are those of UTF-8. -/
theorem decodeFrom_unknown (v : Option Unfinished) (units : List Nat) :
    Decode.decodeFrom .unknown v units = Decode.decodeFrom .utf8 v units := by
  induction units generalizing v with
  | nil => cases v <;> rfl
  | cons unit units ih =>
    rw [Decode.decodeFrom, Decode.decodeFrom, ih]
    rfl

/-- In the encodings of one byte a unit, a run of bytes reads alike in both
ways, in UTF-8 if no lead byte is broken. -/
theorem Encoding.decodeBytes_eq_decode {e : Encoding} (he : e.isSingleByte) {bytes : List UInt8}
    (h : e = .latin1 ∨ e = .windows1252 ∨ Lossy.NoBrokenLead bytes) :
    e.decodeBytes bytes = e.decode (bytes.map UInt8.toNat) := by
  cases e with
  | unknown =>
    rw [decode, decodeFrom_unknown]
    exact Lossy.utf8From_eq_decode (by simpa using h)
  | utf8 => exact Lossy.utf8From_eq_decode (by simpa using h)
  | latin1 =>
    refine (decode_map_start (fun b => ?_) bytes).symm
    exact congrArg Decoded.char (scalar_eq (isValidChar_of_lt (by have := b.toNat_lt; omega)))
  | windows1252 =>
    refine (decode_map_start (fun b => ?_) bytes).symm
    exact congrArg (Decoded.char ∘ Windows1252.char) (Nat.mod_eq_of_lt b.toNat_lt)
  | utf16le | utf16be | utf32le | utf32be | ucs2le | ucs2be | ucs4le | ucs4be =>
    exact absurd he (by decide)

end Tabular
