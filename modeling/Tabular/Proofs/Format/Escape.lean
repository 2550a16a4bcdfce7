/-
Escaped characters are read back.

* `hexNumber?_hexDigits` — the digits of a number stand for it;
* `unescape?_escape` — an escaped form stands for its character;
* `head?_escape` — and begins with a backslash, as no other setting does.
-/
import Mathlib.Algebra.Order.Ring.Nat
import Mathlib.Data.List.Induction
import Mathlib.Tactic.Common
import Tabular.Format.Escape

namespace Tabular.Escape

/-- The digit for a number below sixteen is read as that number. -/
theorem hexDigit?_digitChar {n : Nat} (h : n < 16) :
    hexDigit? n.digitChar.toUpper = some n := by
  have hall : ∀ n < 16, hexDigit? (Nat.digitChar n).toUpper = some n := by decide
  exact hall n h

theorem hexNumber?_concat (digits : List Char) (c : Char) :
    hexNumber? (digits ++ [c]) =
      (hexNumber? digits).bind fun n => (hexDigit? c).map (n * 16 + ·) := by
  rw [hexNumber?, List.foldl_append]
  rfl

/-- What begins with a brace is no number. -/
theorem hexNumber?_brace (digits : List Char) : hexNumber? ('\x7b' :: digits) = none := by
  induction digits using List.reverseRecOn with
  | nil => decide
  | append_singleton digits c ih => rw [← List.cons_append, hexNumber?_concat, ih, Option.bind_none]

/-- The digits of a number stand for it. -/
theorem hexNumber?_hexDigits (n : Nat) : hexNumber? (hexDigits n) = some n := by
  induction n using Nat.strongRecOn with
  | _ n ih =>
    rcases Nat.lt_or_ge n 16 with hlt | hge
    · rw [hexDigits, Nat.toDigits_of_lt_base hlt]
      show (hexDigit? n.digitChar.toUpper).map (0 * 16 + ·) = some n
      rw [hexDigit?_digitChar hlt]
      simp
    · have hdigits : hexDigits n = hexDigits (n / 16) ++ [(n % 16).digitChar.toUpper] := by
        rw [hexDigits, Nat.toDigits_of_base_le (by decide) hge, List.map_append]
        rfl
      have hsplit : n / 16 * 16 + n % 16 = n := Nat.div_add_mod' n 16
      rw [hdigits, hexNumber?_concat, ih (n / 16) (by omega), Option.bind_some,
        hexDigit?_digitChar (Nat.mod_lt n (by decide)), Option.map_some, hsplit]

/-- A number takes no more digits than its size asks for. -/
theorem length_hexDigits_le_iff {n k : Nat} (h : 0 < k) :
    (hexDigits n).length ≤ k ↔ n < 16 ^ k := by
  rw [hexDigits, List.length_map, Nat.length_toDigits_le_iff (by decide) h]

theorem length_hexDigits_pos (n : Nat) : 0 < (hexDigits n).length := by
  rw [hexDigits, List.length_map]
  exact Nat.length_toDigits_pos

theorem hexChar?_of_hexNumber? {digits : List Char} {c : Char}
    (h : hexNumber? digits = some c.toNat) : hexChar? digits = some c := by
  rw [hexChar?, h]
  show (if c.toNat.isValidChar then some (Char.ofNat c.toNat) else none) = some c
  have hvalid : c.toNat.isValidChar := c.valid
  rw [if_pos hvalid, Char.ofNat_toNat]

/-- Two digits without braces. -/
theorem afterBackslash?_digits {digits : List Char} {c : Char} (hlen : digits.length = 2)
    (h : hexNumber? digits = some c.toNat) : afterBackslash? ('x' :: digits) = some c := by
  cases digits with
  | nil => simp at hlen
  | cons d digits =>
    have hd : d ≠ '\x7b' := by
      rintro rfl
      rw [hexNumber?_brace] at h
      simp at h
    rw [afterBackslash?.eq_def]
    simp [hd, hlen, hexChar?_of_hexNumber? h]

/-- One to six digits in braces. -/
theorem afterBackslash?_braced {digits : List Char} {c : Char} (hpos : 1 ≤ digits.length)
    (hlen : digits.length ≤ 6) (h : hexNumber? digits = some c.toNat) :
    afterBackslash? ('x' :: '\x7b' :: (digits ++ ['\x7d'])) = some c := by
  have hbefore : beforeBrace? (digits ++ ['\x7d']) = some digits := by
    rw [beforeBrace?, List.getLast?_concat, if_pos rfl, List.dropLast_concat]
  rw [afterBackslash?, hbefore]
  show (if 1 ≤ digits.length ∧ digits.length ≤ 6 then hexChar? digits else none) = some c
  rw [if_pos ⟨hpos, hlen⟩, hexChar?_of_hexNumber? h]

/-- An escaped form stands for its character. -/
theorem unescape?_escape (c : Char) : unescape? (escape c) = some c := by
  have hnumber := hexNumber?_hexDigits c.toNat
  have hpos := length_hexDigits_pos c.toNat
  have hone : (hexDigits c.toNat).length ≤ 1 ↔ c.toNat < 16 ^ 1 :=
    length_hexDigits_le_iff (by decide)
  have htwo : (hexDigits c.toNat).length ≤ 2 ↔ c.toNat < 16 ^ 2 :=
    length_hexDigits_le_iff (by decide)
  have hsix : (hexDigits c.toNat).length ≤ 6 ↔ c.toNat < 16 ^ 6 :=
    length_hexDigits_le_iff (by decide)
  rw [escape]
  split
  · -- One digit is written with a zero before it, which adds nothing.
    have hzero : hexNumber? ('0' :: hexDigits c.toNat) = hexNumber? (hexDigits c.toNat) := rfl
    refine afterBackslash?_digits ?_ (hzero.trans hnumber)
    rw [List.length_cons]
    omega
  · split
    · have hlen : (hexDigits c.toNat).length = 2 := by omega
      exact afterBackslash?_digits hlen hnumber
    · refine afterBackslash?_braced hpos (hsix.mpr ?_) hnumber
      have hvalid : c.toNat < 0xD800 ∨ 0xDFFF < c.toNat ∧ c.toNat < 0x110000 := c.valid
      omega

/-- An escaped form begins with a backslash. -/
theorem head?_escape (c : Char) : (escape c).head? = some '\\' := by
  rw [escape]
  split
  · rfl
  · split <;> rfl

end Tabular.Escape
