/-
Decoding to the end of a source.

* `Units.Brings` — the units that a steady source is still to bring;
* `Brings.next`, `Brings.nextChar` — a unit or a character comes off the front
  of them;
* `Brings.decodeAll` — to the end, they are decoded as a list of units is;
* `Units.Gives.map_char` — and so are the characters that a reader is given;
* `Encoding.InRepertoire` — the characters that an encoding is for;
* `Units.decodeAll_encode` — these come back when they have been encoded, and
  a question mark for each of the others.

Design notes: nothing is said of offsets, so nothing has to be asked of a unit
that the end of the input cuts short.
-/
import Tabular.Proofs.Read.Offsets
import Tabular.Proofs.Text.Canonical

namespace Tabular

namespace Units

theorem decodeAll_none {u u' : Units} (h : u.nextChar = .ok none u') : u.decodeAll = .ok [] u' := by
  rw [decodeAll]
  split
  · rename_i ht
    exact absurd (h.symm.trans ht) (by simp)
  · rename_i ht
    obtain ⟨-, rfl⟩ := EStateM.Result.ok.inj (h.symm.trans ht)
    rfl
  · rename_i ht
    exact absurd (h.symm.trans ht) (by simp)

theorem decodeAll_some {u u' u'' : Units} {c : Char} {cs : List Char}
    (h : u.nextChar = .ok (some c) u') (hrest : u'.decodeAll = .ok cs u'') :
    u.decodeAll = .ok (c :: cs) u'' := by
  rw [decodeAll]
  split
  · rename_i ht
    exact absurd (h.symm.trans ht) (by simp)
  · rename_i ht
    exact absurd (h.symm.trans ht) (by simp)
  · rename_i ht
    obtain ⟨hc, rfl⟩ := EStateM.Result.ok.inj (h.symm.trans ht)
    obtain rfl := Option.some.inj hc
    dsimp only
    rw [hrest]

/-- The units that a steady source is still to bring, the last of which may be
cut short. -/
structure Brings (u : Units) (units : List Nat) : Prop where
  steady : u.source.Steady
  toCome : u.toCome u.source.rest = units

theorem brings_ofSource {source : Source} {bytes : List UInt8} {position : Nat} (e : Encoding)
    (h : source.Yields bytes position) : (ofSource source e).Brings (e.unitsOf bytes) :=
  ⟨h.steady, congrArg e.unitsOf h.rest⟩

namespace Brings

variable {u : Units} {unit : Nat} {units rest : List Nat} {c : Char}

theorem yields (h : u.Brings units) : u.source.Yields u.source.rest u.source.position :=
  ⟨h.steady, rfl, rfl⟩

theorem next_nil (h : u.Brings []) :
    ∃ u', u.next = .ok none u' ∧ u'.Brings [] ∧ u'.encoding = u.encoding := by
  obtain ⟨source, e, pushed⟩ := u
  obtain ⟨hp, hbytes⟩ := List.append_eq_nil_iff.mp h.toCome
  obtain rfl : pushed = none := by simpa using hp
  obtain ⟨source', hnext, hyields⟩ := next_of_yields h.yields e
  have hdrop := e.unitsOf_drop_unitWidth source.rest
  rw [hbytes] at hnext hdrop
  refine ⟨⟨source', e, none⟩, hnext, ⟨hyields.steady, ?_⟩, rfl⟩
  show e.unitsOf source'.rest = []
  rw [hyields.rest, hdrop, List.tail_nil]

theorem next (h : u.Brings (unit :: units)) :
    ∃ u', u.next = .ok (some unit) u' ∧ u'.Brings units ∧ u'.pushed = none ∧
      u'.encoding = u.encoding := by
  obtain ⟨source, e, pushed⟩ := u
  have hcome := h.toCome
  cases pushed with
  | some x =>
    obtain ⟨rfl, hrest⟩ : x = unit ∧ e.unitsOf source.rest = units := List.cons.inj hcome
    exact ⟨⟨source, e, none⟩, rfl, ⟨h.steady, hrest⟩, rfl, rfl⟩
  | none =>
    obtain ⟨source', hnext, hyields⟩ := next_of_yields h.yields e
    have hunits : e.unitsOf source.rest = unit :: units := hcome
    have hdrop := e.unitsOf_drop_unitWidth source.rest
    rw [hunits] at hnext hdrop
    refine ⟨⟨source', e, none⟩, hnext, ⟨hyields.steady, ?_⟩, rfl, rfl⟩
    show e.unitsOf source'.rest = units
    rw [hyields.rest, hdrop, List.tail_cons]

/-- A unit that has been read can be put back. -/
theorem unread (h : u.Brings units) (hp : u.pushed = none) (unit : Nat) :
    (u.unread unit).Brings (unit :: units) := by
  refine ⟨h.steady, ?_⟩
  rw [← h.toCome, Units.toCome, Units.toCome, hp]
  rfl

theorem tracks (e : Encoding) : Tracks e fun u units => u.encoding = e ∧ u.Brings units where
  encoding h := h.1
  next_nil := by
    rintro u ⟨he, h⟩
    obtain ⟨u', hnext, h', he'⟩ := h.next_nil
    exact ⟨u', hnext, he'.trans he, h'⟩
  next := by
    rintro u unit units ⟨he, h⟩
    obtain ⟨u', hnext, h', hp, he'⟩ := h.next
    exact ⟨u', hnext, ⟨he'.trans he, h'⟩, he'.trans he, h'.unread hp unit⟩

theorem nextChar_nil (h : u.Brings []) :
    ∃ u', u.nextChar = .ok none u' ∧ u'.Brings [] ∧ u'.encoding = u.encoding := by
  obtain ⟨u', hnext, he, h'⟩ := (tracks u.encoding).nextChar_nil ⟨rfl, h⟩
  exact ⟨u', hnext, h', he⟩

/-- The next character is the first of the units to come. -/
theorem nextChar (h : u.Brings units) (hf : Decode.first u.encoding units = some (c, rest)) :
    ∃ u', u.nextChar = .ok (some c) u' ∧ u'.Brings rest ∧ u'.encoding = u.encoding := by
  obtain ⟨u', hnext, he, h'⟩ := (tracks u.encoding).nextChar ⟨rfl, h⟩ hf
  exact ⟨u', hnext, h', he⟩

/-- Decoded to the end, the units to come are the text that they are as a list. -/
theorem decodeAll (h : u.Brings units) :
    ∃ u', u.decodeAll = .ok (u.encoding.decode units) u' ∧ u'.Brings [] := by
  generalize he : u.encoding = e
  induction units using Strategy.induction_first .decode e generalizing u with
  | nil =>
    obtain ⟨u', hnext, h', -⟩ := h.nextChar_nil
    exact ⟨u', decodeAll_none hnext, h'⟩
  | step units c rest hf ih =>
    subst he
    obtain ⟨u', hnext, h', he⟩ := h.nextChar hf
    obtain ⟨u'', hall, h''⟩ := ih h' he
    refine ⟨u'', ?_, h''⟩
    rw [Decode.decode_of_first hf]
    exact decodeAll_some hnext hall

end Brings

/-- The characters that a reader is given are those that the units to come are
decoded as. -/
theorem Gives.map_char {u : Units} {stop : Nat} {cs : List Scanned} {units : List Nat}
    (hg : u.Gives .decode stop cs) (h : u.Brings units) :
    cs.map Scanned.char = u.encoding.decode units := by
  induction hg generalizing units with
  | nil hy hp =>
    rename_i u
    rw [← h.toCome, toCome, hp, hy.rest, Encoding.unitsOf_nil]
    rfl
  | cons hc he hlt hg ih =>
    rename_i u u' c cs
    cases units with
    | nil =>
      obtain ⟨t, hnext, -⟩ := h.nextChar_nil
      rw [scan, show u.readChar .decode = u.nextChar from rfl, hnext] at hc
      exact absurd hc (by simp)
    | cons unit units =>
      obtain ⟨x, rest, hf⟩ := Decode.exists_first u.encoding unit units
      obtain ⟨t, hnext, ht, -⟩ := h.nextChar hf
      rw [scan, show u.readChar .decode = u.nextChar from rfl, hnext] at hc
      obtain ⟨heq, rfl⟩ := EStateM.Result.ok.inj hc
      rw [List.map_cons, ih ht, he, Decode.decode_of_first hf, ← Option.some.inj heq]

end Units

/-! ### What has been encoded -/

namespace Encoding

/-- Whether an encoding is for a character: by its code point, and in a code
page because some byte stands for it. -/
def InRepertoire (e : Encoding) (c : Char) : Prop :=
  match e with
  | latin1 => c.toNat ≤ 0xFF
  | windows1252 => ∃ byte < 256, Windows1252.char byte = c
  | ucs2le | ucs2be => c.toNat ≤ 0xFFFF
  | unknown | utf8 | utf16le | utf16be | utf32le | utf32be | ucs4le | ucs4be => True

variable {e : Encoding} {c : Char} {text : List Char}

theorem represents_iff : e.represents c ↔ e.InRepertoire c := by
  cases e with
  | latin1 | ucs2le | ucs2be => exact decide_eq_true_iff
  | windows1252 =>
    rw [represents, Option.isSome_iff_exists, InRepertoire]
    constructor
    · rintro ⟨byte, hbyte⟩
      exact ⟨byte, Windows1252.char_of_byte? hbyte⟩
    · rintro ⟨byte, hlt, rfl⟩
      exact ⟨byte, Windows1252.byte?_char hlt⟩
  | unknown | utf8 | utf16le | utf16be | utf32le | utf32be | ucs4le | ucs4be =>
    exact iff_of_true rfl trivial

instance (e : Encoding) (c : Char) : Decidable (e.InRepertoire c) :=
  decidable_of_iff _ represents_iff

/-- The character that stands for another in an encoding. -/
def shown (e : Encoding) (c : Char) : Char := if e.InRepertoire c then c else '?'

/-- There is a question mark in every encoding. -/
theorem represents_shown (e : Encoding) (c : Char) : e.represents (e.shown c) := by
  rw [shown]
  split
  · rename_i h
    exact represents_iff.mpr h
  · cases e <;> rfl

/-- A character that the encoding is not for is encoded as a question mark is. -/
theorem encode_map_shown (e : Encoding) (text : List Char) :
    e.encode (text.map e.shown) = e.encode text := by
  rw [encode, encode, List.flatMap_map]
  refine List.flatMap_congr fun c _ => ?_
  rw [encodeChar, encodeChar, if_pos (e.represents_shown c), shown]
  simp only [represents_iff]

/-- The units of an encoded text are decoded as the text, as far as the
encoding is for it. -/
theorem decode_unitsOf_encode (e : Encoding) (text : List Char) :
    e.decode (e.unitsOf (e.encode text)) = text.map e.shown := by
  have h : ∀ c ∈ text.map e.shown, e.represents c := by
    simp only [List.mem_map, forall_exists_index, and_imp, forall_apply_eq_imp_iff₂]
    exact fun c _ => e.represents_shown c
  rw [← encode_map_shown, (groups_encode h).unitsOf_eq, decode_charUnits h]

end Encoding

/-- What has been encoded is decoded again to the end, however it is delivered:
a character that the encoding is for as itself, and any other as a question
mark. -/
theorem Units.decodeAll_encode {source : Source} {e : Encoding} {text : List Char} {position : Nat}
    (h : source.Yields (e.encode text) position) :
    ∃ decoded u, (ofSource source e).decodeAll = .ok decoded u ∧ u.Brings [] ∧
      decoded = (text.map fun c => if e.InRepertoire c then c else '?') ∧
      decoded.length = text.length := by
  obtain ⟨u, hall, hu⟩ := (brings_ofSource e h).decodeAll
  have hdecoded : e.decode (e.unitsOf (e.encode text)) =
      text.map fun c => if e.InRepertoire c then c else '?' := e.decode_unitsOf_encode text
  refine ⟨_, u, ?_, hu, rfl, List.length_map _⟩
  rw [← hdecoded]
  exact hall

/-- A Cyrillic letter is not of the code page, and the euro sign is. -/
theorem Units.decodeAll_encode_parted :
    let feed : Feed :=
      ⟨Encoding.windows1252.encode ['a', '€', 'Я'], [.upTo 1, .interrupted, .upTo 1]⟩
    (∀ d ∈ feed.script, d.Steady) ∧
      ∃ u, (ofSource (.ofFeed feed 8) .windows1252).decodeAll = .ok ['a', '€', '?'] u := by
  intro feed
  have hsteady : ∀ d ∈ feed.script, d.Steady := by simp [feed, Delivery.Steady]
  obtain ⟨decoded, u, hall, -, rfl, -⟩ := decodeAll_encode (Source.yields_ofFeed hsteady 8)
  exact ⟨hsteady, u, hall⟩

end Tabular
