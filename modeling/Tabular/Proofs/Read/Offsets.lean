/-
Where the characters of bytes lie, whatever the bytes.

* `Encoding.unitsOf` — the units of bytes, the last of which may be cut short;
* `Encoding.layOut` — their characters, with the bytes that each lies on;
* `Encoding.BreaksOff` — bytes that end within a unit that was to complete a
  character;
* `Encoding.unitOffset` — the offset after so many units;
* `Units.next_of_yields` — the next unit is the first of the bytes to come.

Design notes: a unit that is put back is taken to have its full width.  So
once a unit that is cut short is put back, the offset that is reported comes
before the one at which it begins.  A unit is put back if it breaks the
character before it, which is why it is bytes that break off.
-/
import Tabular.Proofs.Read.Scan

namespace Tabular

namespace Decode

theorem suffix_of_finish (v : Unfinished) (units : List Nat) : (finish v units).2 <:+ units := by
  induction units generalizing v with
  | nil => exact List.suffix_refl _
  | cons unit units ih =>
    rw [finish]
    cases v.feed unit with
    | none => exact List.suffix_refl _
    | some d =>
      cases d with
      | char c => exact List.suffix_cons ..
      | more v => exact (ih v).trans (List.suffix_cons ..)

theorem suffix_of_first {e : Encoding} {units rest : List Nat} {c : Char}
    (h : first e units = some (c, rest)) : rest <:+ units := by
  cases units with
  | nil => simp at h
  | cons unit units =>
    rw [first] at h
    split at h
    · obtain ⟨-, rfl⟩ := Prod.mk.inj (Option.some.inj h)
      exact List.suffix_cons ..
    · rename_i v _
      have hsuffix := suffix_of_finish v units
      rw [Option.some.inj h] at hsuffix
      exact hsuffix.trans (List.suffix_cons ..)

/-- Where a unit is more than a byte, no character has more than two. -/
theorem missing_of_start {e : Encoding} {unit : Nat} {v : Unfinished}
    (h : start e unit = .more v) (he : e.unitWidth ≠ 1) : v.missing = 0 := by
  cases e with
  | unknown | utf8 | latin1 | windows1252 => exact absurd rfl he
  | utf16le | utf16be =>
    rw [start, startUtf16] at h
    split at h
    · obtain rfl := Decoded.more.inj h
      rfl
    · exact absurd h (by simp)
  | ucs2le | ucs2be | utf32le | utf32be | ucs4le | ucs4be => exact absurd h (by simp [start])

end Decode

namespace Encoding

variable (e : Encoding)

/-- The units of bytes.  If the last is cut short it stands for U+FFFD. -/
def unitsOf : List UInt8 → List Nat
  | [] => []
  | b :: bytes =>
    (if (b :: bytes).length < e.unitWidth then replacement.toNat
      else e.assemble ((b :: bytes).take e.unitWidth)) ::
      unitsOf ((b :: bytes).drop e.unitWidth)
termination_by bytes => bytes.length
decreasing_by
  have hw := e.unitWidth_pos
  simp only [List.length_drop, List.length_cons]
  omega

@[simp] theorem unitsOf_nil : e.unitsOf [] = [] := by rw [unitsOf]

theorem unitsOf_eq_nil {bytes : List UInt8} : e.unitsOf bytes = [] ↔ bytes = [] := by
  cases bytes with
  | nil => simp
  | cons b bytes =>
    rw [unitsOf]
    simp

/-- The units after the first are those of the bytes after its own. -/
theorem unitsOf_drop_unitWidth (bytes : List UInt8) :
    e.unitsOf (bytes.drop e.unitWidth) = (e.unitsOf bytes).tail := by
  cases bytes with
  | nil => simp
  | cons b bytes => rw [unitsOf.eq_def e (b :: bytes), List.tail_cons]

/-- There is room for the bytes in their units. -/
theorem length_le_unitsOf (bytes : List UInt8) :
    bytes.length ≤ e.unitWidth * (e.unitsOf bytes).length := by
  fun_induction unitsOf e bytes with
  | case1 => exact Nat.zero_le _
  | case2 b bytes ih =>
    simp only [List.length_drop, List.length_cons, Nat.mul_succ] at ih ⊢
    omega

/-- The units that bytes group into. -/
theorem Groups.unitsOf_eq {e : Encoding} {bytes : List UInt8} {units : List Nat}
    (h : e.Groups bytes units) : e.unitsOf bytes = units := by
  have hw := e.unitWidth_pos
  induction h with
  | nil => exact e.unitsOf_nil
  | cons hg h ih =>
    rename_i group bytes units
    cases group with
    | nil => exact absurd hg (Nat.ne_of_lt hw)
    | cons b group =>
      have htake : ((b :: group) ++ bytes).take e.unitWidth = b :: group := List.take_left' hg
      have hdrop : ((b :: group) ++ bytes).drop e.unitWidth = bytes := List.drop_left' hg
      have hlen : ¬ ((b :: group) ++ bytes).length < e.unitWidth := by
        rw [List.length_append]
        omega
      rw [List.cons_append] at htake hdrop hlen ⊢
      rw [unitsOf, htake, hdrop, if_neg hlen, ih]

theorem unitsOf_eq_map {e : Encoding} (he : e.isSingleByte) (bytes : List UInt8) :
    e.unitsOf bytes = bytes.map UInt8.toNat := (groups_singleByte he bytes).unitsOf_eq

/-- Whether the last of some units comes just after one that begins a
character of several. -/
def Pairs (units : List Nat) : Prop :=
  ∃ unit last v, [unit, last] <:+ units ∧ Decode.start e unit = .more v

/-- Whether bytes end within a unit just after one that begins a character of
several. -/
def BreaksOff (bytes : List UInt8) : Prop :=
  ¬ e.unitWidth ∣ bytes.length ∧ e.Pairs (e.unitsOf bytes)

end Encoding

/-- The character, on no bytes past `stop`. -/
def Scanned.clip (stop : Nat) (c : Scanned) : Scanned :=
  { c with span := { c.span with stop := min stop c.span.stop } }

/-- The characters of bytes of which the first is at offset `start`. -/
def Encoding.layOut (e : Encoding) (start : Nat) (bytes : List UInt8) : List Scanned :=
  (Strategy.decode.scanned e (start + e.unitWidth * (e.unitsOf bytes).length)
    (e.unitsOf bytes)).map (Scanned.clip (start + bytes.length))

namespace Units

/-- If none was put back, the next unit is the first of the bytes to come. -/
theorem next_of_yields {source : Source} {bytes : List UInt8} {position : Nat}
    (h : source.Yields bytes position) (e : Encoding) :
    ∃ source', next ⟨source, e, none⟩ = .ok (e.unitsOf bytes).head? ⟨source', e, none⟩ ∧
      source'.Yields (bytes.drop e.unitWidth) (position + min e.unitWidth bytes.length) := by
  have hw := e.unitWidth_pos
  obtain ⟨source', hbytes, hyields⟩ := h.nextBytes e.unitWidth
  refine ⟨source', ?_, hyields⟩
  rw [next]
  dsimp only
  rw [hbytes]
  cases bytes with
  | nil => simp
  | cons b bytes =>
    have hne : (b :: bytes).take e.unitWidth ≠ [] := by simp [Nat.ne_of_gt hw]
    have hcut : ((b :: bytes).take e.unitWidth).length < e.unitWidth ↔
        (b :: bytes).length < e.unitWidth := by
      rw [List.length_take]
      omega
    rw [Encoding.unitsOf]
    simp only [hcut, List.head?_cons]

/-- The units still to come: one that was put back, and those of the bytes
that have not been read. -/
def toCome (u : Units) (bytes : List UInt8) : List Nat :=
  u.pushed.toList ++ u.encoding.unitsOf bytes

end Units

/-! ### Numbers of units -/

/-- The offset after the first `n` units of bytes of which the first is at
offset `start`.  The last unit may be cut short. -/
def Encoding.unitOffset (e : Encoding) (start : Nat) (bytes : List UInt8) (n : Nat) : Nat :=
  min (start + bytes.length) (start + e.unitWidth * n)

theorem Encoding.unitOffset_mono {e : Encoding} {start : Nat} {bytes : List UInt8} {m n : Nat}
    (h : m ≤ n) : e.unitOffset start bytes m ≤ e.unitOffset start bytes n := by
  have := Nat.mul_le_mul_left e.unitWidth h
  simp only [unitOffset]
  omega

/-- What a character leaves of the last units of some are the last as well. -/
theorem Strategy.exists_drop_of_first {s : Strategy} {e : Encoding} {units rest : List Nat}
    {c : Char} {n : Nat} (h : s.first e (units.drop n) = some (c, rest)) :
    ∃ m, n ≤ m ∧ m ≤ units.length ∧ rest = units.drop m := by
  have hsuffix : rest <:+ units.drop n := by
    cases s with
    | raw =>
      cases hu : units.drop n with
      | nil => simp [hu, first] at h
      | cons unit more =>
        obtain ⟨-, rfl⟩ : _ ∧ more = rest := by simpa [hu, first] using h
        exact List.suffix_cons ..
    | decode | view | discard => exact Decode.suffix_of_first h
  have hlt := length_lt_of_first h
  rw [List.length_drop] at hlt
  refine ⟨units.length - rest.length, by omega, Nat.sub_le .., ?_⟩
  exact List.suffix_iff_eq_drop.mp (hsuffix.trans (List.drop_suffix ..))

end Tabular
