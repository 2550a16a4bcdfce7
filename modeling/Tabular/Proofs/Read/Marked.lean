/-
Texts after a byte order mark.

* `Encoding.HidesMark` — where a mark and what comes after it are taken for
  another mark;
* `ByteOrderMark.detect_marked`, `Encoding.resolve_marked` — anywhere else a
  mark is passed over in the encoding that it is of;
* `Encoding.carries_marked` — and what is hidden belongs to the text;
* `readBytes_marked` — so a text after its mark is read as it is in UTF-8.

Design notes: of all marks only that of UTF-16LE begins another one, and only
U+0000 completes that.  The longest mark is looked for first, whatever encoding
has been asked for.
-/
import Tabular.Proofs.Read.Retold

namespace Tabular

/-- The mark of the encoding and the head of the text make the mark of
UTF-32LE. -/
def Encoding.HidesMark (e : Encoding) (text : List Char) : Prop :=
  (e = .utf16le ∨ e = .ucs2le) ∧ text.head? = some '\x00'

instance (e : Encoding) (text : List Char) : Decidable (e.HidesMark text) :=
  inferInstanceAs (Decidable (_ ∧ _))

variable {e : Encoding} {mark : ByteOrderMark} {text : List Char}

/-- The mark that is recognised before a text. -/
theorem ByteOrderMark.detect_marked (h : ofEncoding? e = some mark)
    (ht : ∀ c ∈ text, e.represents c) :
    detect ((mark.bytes ++ e.encode text).take 4) =
      some (if e.HidesMark text then utf32le else mark) := by
  by_cases hzero : text.head? = some '\x00'
  · obtain ⟨text, rfl⟩ := List.head?_eq_some_iff.mp hzero
    cases e with
    | unknown | latin1 | windows1252 => simp [ofEncoding?] at h
    | utf8 | utf16le | utf16be | ucs2le | ucs2be | utf32le | utf32be | ucs4le | ucs4be =>
      obtain rfl := Option.some.inj h
      rfl
  · rw [detect_append h ht hzero, if_neg fun hhides => hzero hhides.2]

/-- A mark is passed over unless it is hidden. -/
theorem Encoding.resolve_marked (h : ByteOrderMark.ofEncoding? e = some mark)
    (ht : ∀ c ∈ text, e.represents c) :
    e.resolve ((mark.bytes ++ e.encode text).take 4) =
      (e, if e.HidesMark text then 0 else mark.size) := by
  have hknown : e ≠ .unknown := by
    rintro rfl
    simp [ByteOrderMark.ofEncoding?] at h
  have hdetect := ByteOrderMark.detect_marked h ht
  split_ifs at hdetect ⊢ with hhides
  · refine resolve_of_ne hknown fun mark' hown hdetect' => ?_
    obtain rfl : mark' = .utf32le := Option.some.inj (hdetect'.symm.trans hdetect)
    rcases hhides.1 with rfl | rfl <;> simp [ByteOrderMark.ofEncoding?] at hown
  · exact resolve_of_mark hknown h hdetect

/-- What a text after its mark is read as. -/
theorem Encoding.carries_marked (h : ByteOrderMark.ofEncoding? e = some mark)
    (ht : ∀ c ∈ text, e.represents c) :
    e.Carries (mark.bytes ++ e.encode text)
      (if e.HidesMark text then '\uFEFF' :: text else text) := by
  have hresolve := resolve_marked h ht
  split_ifs at hresolve ⊢ with hhides
  · have hmark := ByteOrderMark.represents_mark h
    refine ⟨List.forall_mem_cons.mpr ⟨hmark, ht⟩, 0, hresolve, ?_⟩
    rw [List.drop_zero, ByteOrderMark.bytes_eq_charBytes h, encode, encode, List.flatMap_cons,
      encodeChar, if_pos hmark]
  · exact ⟨ht, _, hresolve, List.drop_left ..⟩

/-- A mark is passed over in the encoding that it is of, and the text after it
is read as it is in UTF-8 after the mark of UTF-8.  In UTF-16LE and UCS-2LE a
text that begins with U+0000 is an exception: nothing is passed over, and the
first cell begins with the mark. -/
theorem readBytes_marked {o : ReadOptions} (f : Format) (v : Nat → Nat → Verdict)
    (h : ByteOrderMark.ofEncoding? e = some mark) (ht : ∀ c ∈ text, e.represents c)
    (ho : o.strategy.getD .decode = .decode) :
    let read (e : Encoding) (mark : ByteOrderMark) (text : List Char) :=
      readBytes (mark.bytes ++ e.encode text) { f with encoding := e }
        { o with characterwise := true } fun row column _ => v row column
    let told := if e.HidesMark text then '\uFEFF' :: text else text
    e.resolve ((mark.bytes ++ e.encode text).take 4) =
        (e, if e.HidesMark text then 0 else mark.size) ∧
      ∃ s s', (read e mark text).result = .ok s ∧ (read .utf8 .utf8 told).result = .ok s' ∧
        (read e mark text).handed.map Handed.told =
          (read .utf8 .utf8 told).handed.map Handed.told ∧
        s.rows = s'.rows ∧ s.stopped = s'.stopped ∧ s.separator = s'.separator ∧
        s.lineEnd = s'.lineEnd := by
  intro read told
  have hutf8 : Encoding.utf8.Carries (ByteOrderMark.utf8.bytes ++ Encoding.utf8.encode told)
      (if Encoding.utf8.HidesMark told then '\uFEFF' :: told else told) :=
    Encoding.carries_marked rfl fun _ _ => rfl
  rw [if_neg (by simp [Encoding.HidesMark])] at hutf8
  exact ⟨Encoding.resolve_marked h ht,
    readBytes_carries f v (Encoding.carries_marked h ht) hutf8 ho⟩

/-- U+0000 after the mark, which hides it in UTF-16LE but not in UTF-16BE. -/
theorem readBytes_marked_zero :
    let text : List Char := ['\x00', 'a', ',', 'b']
    let read (e : Encoding) (mark : ByteOrderMark) (text : List Char) :=
      readBytes (mark.bytes ++ e.encode text) { Format.csv with encoding := e }
        { characterwise := true } fun _ _ _ => .proceed
    ByteOrderMark.ofEncoding? .utf16le = some .utf16le ∧
      ByteOrderMark.ofEncoding? .utf16be = some .utf16be ∧
      (∀ c ∈ text, Encoding.utf16le.represents c) ∧ (∀ c ∈ text, Encoding.utf16be.represents c) ∧
      (read .utf16le .utf16le text).handed.map Handed.told =
        [(0, 0, "\uFEFF\x00a", false), (0, 1, "b", false)] ∧
      (read .utf16be .utf16be text).handed.map Handed.told =
        [(0, 0, "\x00a", false), (0, 1, "b", false)] := by
  intro text read
  have hle : ∀ c ∈ text, Encoding.utf16le.represents c := fun _ _ => rfl
  have hbe : ∀ c ∈ text, Encoding.utf16be.represents c := fun _ _ => rfl
  obtain ⟨-, -, -, -, -, htold, -⟩ :=
    readBytes_marked (o := {}) .csv (fun _ _ => .proceed) (e := .utf16le) rfl hle rfl
  obtain ⟨-, -, -, -, -, htold', -⟩ :=
    readBytes_marked (o := {}) .csv (fun _ _ => .proceed) (e := .utf16be) rfl hbe rfl
  exact ⟨rfl, rfl, hle, hbe, htold.trans (by decide +kernel), htold'.trans (by decide +kernel)⟩

end Tabular
