/-
Values that are written and parsed again.

* `Json.textChars`, `Json.objectChars` — a text and an object as they are
  written, without any white space;
* `Json.Parses` — characters that are parsed as a value, whatever follows them;
* `Json.parses_text`, `Json.parses_object` — which is so of texts, and of
  objects if it is of their members;
* `Json.Parses.parse?_eq` — a document that is nothing else.

Design notes: the parser is bounded by the number of characters, so the bound
is general in every statement and each step leaves room for the next.
-/
import Mathlib.Tactic.Common
import Tabular.Json.Value
import Tabular.Proofs.Format.Escape

namespace Tabular.Json

open Parse

/-! ### Texts -/

/-- What stands for a character after a backslash, where that is one character. -/
def escapeLetter? : Char → Option Char
  | '"' => some '"'
  | '\\' => some '\\'
  | '\x08' => some 'b'
  | '\x0c' => some 'f'
  | '\n' => some 'n'
  | '\r' => some 'r'
  | '\t' => some 't'
  | _ => none

/-- A character of a text as it is written. -/
def charChars (c : Char) : List Char :=
  match escapeLetter? c with
  | some letter => ['\\', letter]
  | none =>
    if c.toNat < 0x20 then
      ['\\', 'u', '0', '0', Nat.digitChar (c.toNat / 16), Nat.digitChar (c.toNat % 16)]
    else [c]

/-- A text as it is written, after its opening quote. -/
def bodyChars (text : List Char) : List Char := text.flatMap charChars ++ ['"']

/-- A text as it is written. -/
def textChars (text : String) : List Char := '"' :: bodyChars text.toList

theorem hexNumber?_control : ∀ n < 0x20,
    Escape.hexNumber? ['0', '0', Nat.digitChar (n / 16), Nat.digitChar (n % 16)] = some n := by
  decide

theorem escapedUnit_letter {c letter : Char} (h : escapeLetter? c = some letter)
    (rest : List Char) : escapedUnit (letter :: rest) = some (c.toNat, rest) := by
  unfold escapeLetter? at h
  split at h <;> cases h <;> rfl

theorem escapedUnit_control {c : Char} (hc : c.toNat < 0x20) (rest : List Char) :
    escapedUnit ('u' :: '0' :: '0' :: Nat.digitChar (c.toNat / 16) ::
      Nat.digitChar (c.toNat % 16) :: rest) = some (c.toNat, rest) := by
  rw [escapedUnit, hexNumber?_control _ hc]
  rfl

theorem stringUnits_escaped {n unit : Nat} {cs rest : List Char}
    (h : escapedUnit cs = some (unit, rest)) :
    stringUnits (n + 1) ('\\' :: cs) =
      (stringUnits n rest).map fun (units, rest) => (unit :: units, rest) := by
  rw [stringUnits, h, Option.bind_eq_bind, Option.bind_some]
  dsimp only
  cases stringUnits n rest <;> rfl

/-- A character that is written comes off the front. -/
theorem stringUnits_charChars (n : Nat) (c : Char) (rest : List Char) :
    stringUnits (n + 1) (charChars c ++ rest) =
      (stringUnits n rest).map fun (units, rest) => (c.toNat :: units, rest) := by
  rw [charChars]
  cases hletter : escapeLetter? c with
  | some letter => exact stringUnits_escaped (escapedUnit_letter hletter rest)
  | none =>
    dsimp only
    split_ifs with hcontrol
    · exact stringUnits_escaped (escapedUnit_control hcontrol rest)
    · have hquote : c ≠ '"' := fun h => absurd (h ▸ hletter) (by decide)
      have hbackslash : c ≠ '\\' := fun h => absurd (h ▸ hletter) (by decide)
      rw [List.singleton_append, stringUnits, if_neg hcontrol]
      · cases stringUnits n rest <;> rfl
      · exact hquote
      · exact hbackslash

theorem stringUnits_bodyChars {n : Nat} {text : List Char} (hn : text.length < n)
    (rest : List Char) :
    stringUnits n (bodyChars text ++ rest) = some (text.map Char.toNat, rest) := by
  induction text generalizing n with
  | nil =>
    obtain ⟨n, rfl⟩ := Nat.exists_eq_succ_of_ne_zero (Nat.ne_of_gt hn)
    rfl
  | cons c text ih =>
    obtain ⟨n, rfl⟩ := Nat.exists_eq_succ_of_ne_zero (Nat.ne_of_gt (Nat.zero_lt_of_lt hn))
    have hrest := ih (Nat.lt_of_succ_lt_succ hn)
    rw [bodyChars] at hrest ⊢
    rw [List.flatMap_cons, List.append_assoc, List.append_assoc, stringUnits_charChars,
      ← List.append_assoc, hrest]
    rfl

theorem textOfUnits?_cons (c : Char) (units : List Nat) :
    textOfUnits? (c.toNat :: units) = (textOfUnits? units).map (c :: ·) := by
  have hvalid : c.toNat.isValidChar := c.valid
  have hself : Char.ofNat c.toNat = c := Char.ofNat_toNat c
  cases units with
  | nil =>
    show (if c.toNat.isValidChar then some [Char.ofNat c.toNat] else none) = some [c]
    rw [if_pos hvalid, hself]
  | cons low units => rw [textOfUnits?, if_pos hvalid, hself]

theorem textOfUnits?_map (text : List Char) :
    textOfUnits? (text.map Char.toNat) = some text := by
  induction text with
  | nil => rfl
  | cons c text ih => rw [List.map_cons, textOfUnits?_cons, ih]; rfl

theorem length_le_bodyChars (text : List Char) : text.length < (bodyChars text).length := by
  induction text with
  | nil => exact Nat.zero_lt_one
  | cons c text ih =>
    have hc : 0 < (charChars c).length := by
      rw [charChars]
      split
      · exact Nat.succ_pos _
      · split_ifs <;> exact Nat.succ_pos _
    rw [bodyChars, List.length_append] at ih ⊢
    rw [List.flatMap_cons, List.length_append, List.length_cons]
    omega

theorem stringText_bodyChars (text : String) (rest : List Char) :
    stringText (bodyChars text.toList ++ rest) = some (some text, rest) := by
  have hlength := length_le_bodyChars text.toList
  have hn : text.toList.length < (bodyChars text.toList ++ rest).length + 1 := by
    rw [List.length_append]
    omega
  rw [stringText, stringUnits_bodyChars hn]
  show some ((textOfUnits? (text.toList.map Char.toNat)).map String.ofList, rest) = _
  rw [textOfUnits?_map, Option.map_some, String.ofList_toList]

/-! ### Values -/

/-- Characters that are parsed as a value, whatever follows them. -/
def Parses (cs : List Char) (json : Json) : Prop :=
  ∀ n rest, cs.length < n → value n (cs ++ rest) = some (json, rest)

theorem parses_text (text : String) : Parses (textChars text) (.string (some text)) := by
  intro n rest hn
  obtain ⟨n, rfl⟩ := Nat.exists_eq_succ_of_ne_zero (Nat.ne_of_gt (Nat.zero_lt_of_lt hn))
  have hspace : skipSpace (textChars text ++ rest) = '"' :: (bodyChars text.toList ++ rest) := rfl
  rw [value, hspace]
  show (stringText (bodyChars text.toList ++ rest)).map _ = _
  rw [stringText_bodyChars]
  rfl

/-- A member of an object, with its value as it is written and as it is. -/
structure Member where
  name : String
  chars : List Char
  json : Json

namespace Member

/-- The member as it is written. -/
def written (m : Member) : List Char := textChars m.name ++ ':' :: m.chars

def value (m : Member) : Option String × Json := (some m.name, m.json)

end Member

/-- The members of an object as they are written, after its opening brace. -/
def membersChars : List Member → List Char
  | [] => ['\x7d']
  | [m] => m.written ++ ['\x7d']
  | m :: m' :: ms => m.written ++ ',' :: membersChars (m' :: ms)

/-- An object as it is written. -/
def objectChars (ms : List Member) : List Char := '\x7b' :: membersChars ms

/-- A member comes off the front, and what follows it says whether there are
more. -/
theorem members_written {n : Nat} {m : Member} (h : Parses m.chars m.json) (hn : m.chars.length < n)
    (rest : List Char) :
    members (n + 1) (m.written ++ rest) =
      match skipSpace rest with
      | '\x7d' :: rest => some ([m.value], rest)
      | ',' :: cs => do
        let (ms, rest) ← members n cs
        some (m.value :: ms, rest)
      | _ => none := by
  have hspace : skipSpace (m.written ++ rest) =
      '"' :: (bodyChars m.name.toList ++ ':' :: (m.chars ++ rest)) := by
    rw [Member.written, List.append_assoc]
    rfl
  have hcolon : skipSpace (':' :: (m.chars ++ rest)) = ':' :: (m.chars ++ rest) := rfl
  rw [members, hspace]
  show (stringText (bodyChars m.name.toList ++ ':' :: (m.chars ++ rest))).bind _ = _
  rw [stringText_bodyChars, Option.bind_some]
  dsimp only
  rw [hcolon]
  show (Parse.value n (m.chars ++ rest)).bind _ = _
  rw [h n rest hn, Option.bind_some]
  rfl

/-- The members of an object, of which there is one at least, if their values
are parsed. -/
theorem members_membersChars {ms : List Member} (h : ∀ m ∈ ms, Parses m.chars m.json)
    (hne : ms ≠ []) {n : Nat} (hn : (membersChars ms).length < n) (rest : List Char) :
    members n (membersChars ms ++ rest) = some (ms.map Member.value, rest) := by
  induction ms generalizing n with
  | nil => exact absurd rfl hne
  | cons m ms ih =>
    rw [List.forall_mem_cons] at h
    obtain ⟨n, rfl⟩ := Nat.exists_eq_succ_of_ne_zero (Nat.ne_of_gt (Nat.zero_lt_of_lt hn))
    cases ms with
    | nil =>
      rw [membersChars, Member.written, List.length_append, List.length_append,
        List.length_cons] at hn
      rw [membersChars, List.append_assoc, members_written h.1 (by omega)]
      rfl
    | cons m' ms =>
      rw [membersChars, Member.written, List.length_append, List.length_append, List.length_cons,
        List.length_cons] at hn
      rw [membersChars, List.append_assoc, members_written h.1 (by omega)]
      show (members n (membersChars (m' :: ms) ++ rest)).bind _ = _
      rw [ih h.2 (List.cons_ne_nil _ _) (by omega)]
      rfl

/-- An object is parsed if the values of its members are. -/
theorem parses_object {ms : List Member} (h : ∀ m ∈ ms, Parses m.chars m.json) :
    Parses (objectChars ms) (.object (ms.map Member.value)) := by
  intro n rest hn
  obtain ⟨n, rfl⟩ := Nat.exists_eq_succ_of_ne_zero (Nat.ne_of_gt (Nat.zero_lt_of_lt hn))
  cases ms with
  | nil => rfl
  | cons m ms =>
    have hmembers := members_membersChars h (List.cons_ne_nil _ _) (Nat.lt_of_succ_lt_succ hn) rest
    -- What begins with a quote ends no object.
    obtain ⟨more, hmore⟩ : ∃ more, membersChars (m :: ms) ++ rest = '"' :: more := by
      cases ms <;> exact ⟨_, rfl⟩
    rw [hmore] at hmembers
    have hspace : skipSpace (objectChars (m :: ms) ++ rest) = '\x7b' :: '"' :: more := by
      rw [← hmore]
      rfl
    rw [value, hspace]
    show (members n ('"' :: more)).map _ = _
    rw [hmembers]
    rfl

/-- A document that is nothing else than a value. -/
theorem Parses.parse?_eq {cs : List Char} {json : Json} (h : Parses cs json) :
    parse? (String.ofList cs) = some json := by
  have hn : cs.length < (String.ofList cs).length + 1 := by
    rw [String.length_ofList]
    exact Nat.lt_succ_self _
  have hvalue := h _ [] hn
  rw [List.append_nil] at hvalue
  rw [parse?, String.toList_ofList, hvalue]
  rfl

end Tabular.Json
