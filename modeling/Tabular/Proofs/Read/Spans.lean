/-
The bytes that each decoded character takes.

* `Encoding.unitsOf_drop`, `Encoding.exists_of_unitsOf_eq_append` — bytes of
  which so many units have been read, and bytes that begin with given units;
* `Encoding.charAt_of_first` — a character takes the bytes that it is encoded
  as, unless it is U+FFFD;
* `Units.Decodes` — a run of a reader to the end of its bytes, with the bytes
  that it has taken for each character;
* `Units.Brings.decodes` — there is one, and these follow each other and are all
  of the bytes;
* `Units.decodeAll_canonical` — so no byte is lost, and only what a character
  is encoded as is decoded as it.

Design notes: where a reader is follows from the units that are still to come,
of which one may have been put back.  The offset that it reports is not used,
since that of a unit cut short is wrong once the unit has been put back.
-/
import Tabular.Proofs.Read.Malformed

namespace Tabular

namespace Encoding

variable {e : Encoding} {bytes : List UInt8} {units rest : List Nat} {c : Char} {n m : Nat}

/-! ### Units and the bytes that they are made of -/

theorem unitsOf_drop (bytes : List UInt8) (n : Nat) :
    e.unitsOf (bytes.drop (e.unitWidth * n)) = (e.unitsOf bytes).drop n := by
  induction n generalizing bytes with
  | zero => rfl
  | succ n ih =>
    rw [Nat.mul_succ, Nat.add_comm, ← List.drop_drop, ih, unitsOf_drop_unitWidth, List.drop_tail]

theorem unitsOf_lt (bytes : List UInt8) : ∀ unit ∈ e.unitsOf bytes, unit < 256 ^ e.unitWidth := by
  fun_induction unitsOf e bytes with
  | case1 => exact List.forall_mem_nil _
  | case2 b bytes ih =>
    refine List.forall_mem_cons.mpr ⟨?_, ih⟩
    split
    · rename_i hlt
      have hwide : 2 ≤ e.unitWidth := Nat.lt_of_le_of_lt (Nat.succ_pos _) hlt
      exact Nat.lt_of_lt_of_le (show replacement.toNat < 256 ^ 2 by decide)
        (Nat.pow_le_pow_right (by decide) hwide)
    · rename_i hle
      exact assemble_lt (by rw [List.length_take, Nat.min_eq_left (Nat.le_of_not_lt hle)])

/-- Bytes of units none of which is cut short begin with the bytes of these. -/
theorem exists_of_unitsOf_eq_append (h : e.unitsOf bytes = units ++ rest)
    (hwhole : 1 < e.unitWidth → replacement.toNat ∉ units) :
    ∃ more, bytes = units.flatMap e.unitBytes ++ more := by
  induction units generalizing bytes with
  | nil => exact ⟨bytes, rfl⟩
  | cons unit units ih =>
    cases bytes with
    | nil => exact absurd h (by simp)
    | cons b bytes =>
      rw [unitsOf, List.cons_append] at h
      obtain ⟨rfl, hunits⟩ := List.cons.inj h
      obtain ⟨more, hmore⟩ := ih hunits fun hwide hmem => hwhole hwide (List.mem_cons_of_mem _ hmem)
      have hle : ¬ (b :: bytes).length < e.unitWidth := by
        intro hlt
        rw [if_pos hlt] at hwhole
        exact hwhole (Nat.lt_of_le_of_lt (Nat.succ_pos _) hlt) (List.mem_cons_self ..)
      have hgroup : ((b :: bytes).take e.unitWidth).length = e.unitWidth := by
        rw [List.length_take, Nat.min_eq_left (Nat.le_of_not_lt hle)]
      refine ⟨more, ?_⟩
      rw [if_neg hle, List.flatMap_cons, unitBytes_assemble hgroup, List.append_assoc, ← hmore,
        List.take_append_drop]

/-- No other character has the unit that stands for what is cut short. -/
theorem replacement_notMem_charUnits (hwide : 1 < e.unitWidth) (hc : c ≠ replacement) :
    replacement.toNat ∉ e.charUnits c := by
  have hne : replacement.toNat ≠ c.toNat := fun heq => hc (Char.toNat_inj.mp heq.symm)
  have hlt := toNat_lt c
  have hcode : replacement.toNat = 0xFFFD := rfl
  cases e with
  | unknown | utf8 | latin1 | windows1252 => exact absurd hwide (by decide)
  | utf16le | utf16be =>
    rw [charUnits, utf16Units]
    split
    · exact fun hmem => hne (List.mem_singleton.mp hmem)
    · simp only [List.mem_cons, List.not_mem_nil, or_false]
      omega
  | ucs2le | ucs2be | utf32le | utf32be | ucs4le | ucs4be =>
    exact fun hmem => hne (List.mem_singleton.mp hmem)

/-! ### Offsets of units -/

theorem drop_unitOffset (bytes : List UInt8) (n : Nat) :
    bytes.drop (e.unitOffset 0 bytes n) = bytes.drop (e.unitWidth * n) := by
  rw [unitOffset, Nat.zero_add, Nat.zero_add]
  rcases Nat.le_total bytes.length (e.unitWidth * n) with hle | hle
  · rw [Nat.min_eq_left hle, List.drop_eq_nil_of_le (Nat.le_refl _), List.drop_eq_nil_of_le hle]
  · rw [Nat.min_eq_right hle]

/-- Every unit has a byte. -/
theorem unitWidth_mul_lt (hn : n < (e.unitsOf bytes).length) : e.unitWidth * n < bytes.length := by
  rw [← Nat.not_le, ← List.drop_eq_nil_iff, ← unitsOf_eq_nil e, unitsOf_drop, List.drop_eq_nil_iff]
  omega

theorem unitOffset_lt (hn : n < m) (hm : m ≤ (e.unitsOf bytes).length) :
    e.unitOffset 0 bytes n < e.unitOffset 0 bytes m := by
  have hw := e.unitWidth_pos
  have hmul : e.unitWidth * n < e.unitWidth * m := Nat.mul_lt_mul_of_pos_left hn hw
  have hmore := unitWidth_mul_lt (Nat.lt_of_lt_of_le hn hm)
  rw [unitOffset, unitOffset]
  omega

theorem length_flatMap_unitBytes (units : List Nat) :
    (units.flatMap e.unitBytes).length = e.unitWidth * units.length := by
  induction units with
  | nil => rfl
  | cons unit units ih =>
    rw [List.flatMap_cons, List.length_append, length_unitBytes, ih, List.length_cons,
      Nat.mul_succ, Nat.add_comm]

/-- A character takes the bytes that it is encoded as, unless it is U+FFFD. -/
theorem charAt_of_first (hn : n < m) (hm : m ≤ (e.unitsOf bytes).length)
    (h : Decode.first e ((e.unitsOf bytes).drop n) = some (c, (e.unitsOf bytes).drop m)) :
    e.CharAt bytes (e.unitOffset 0 bytes n) (e.unitOffset 0 bytes m) c := by
  intro hc
  obtain ⟨hrepresents, hunits⟩ := Decode.eq_charUnits_of_first
    (fun unit hu => unitsOf_lt bytes unit (List.mem_of_mem_drop hu)) h hc
  have hcount : m = n + (e.charUnits c).length := by
    have hlength := congrArg List.length hunits
    rw [List.length_append, List.length_drop, List.length_drop] at hlength
    omega
  rw [← unitsOf_drop] at hunits
  obtain ⟨more, hmore⟩ := exists_of_unitsOf_eq_append hunits fun hwide =>
    replacement_notMem_charUnits hwide hc
  -- None of its units is cut short, so it ends where all of them do.
  have hwidth : e.unitOffset 0 bytes m - e.unitOffset 0 bytes n =
      ((e.charUnits c).flatMap e.unitBytes).length := by
    have hlt := unitOffset_lt hn hm
    have hlength := congrArg List.length hmore
    have hmul : e.unitWidth * m = e.unitWidth * n + e.unitWidth * (e.charUnits c).length := by
      rw [hcount, Nat.mul_add]
    rw [List.length_append, length_flatMap_unitBytes, List.length_drop] at hlength
    rw [length_flatMap_unitBytes]
    rw [unitOffset, unitOffset] at hlt ⊢
    omega
  refine ⟨hrepresents, ?_⟩
  rw [Span.slice, drop_unitOffset, hmore, hwidth, List.take_left, charBytes_eq]

end Encoding

namespace Units

variable {e : Encoding} {bytes : List UInt8} {u : Units} {cs : List Scanned}

/-! ### Runs of a reader -/

/-- The offset in the bytes that a reader is of which come before the units
that it is still to deliver, one that has been put back among them. -/
def offsetIn (u : Units) (bytes : List UInt8) : Nat :=
  u.encoding.unitOffset 0 bytes
    ((u.encoding.unitsOf bytes).length - (u.toCome u.source.rest).length)

/-- A run of a reader of the bytes to their end: the characters that it reads
one by one, each with the bytes that it has taken for it. -/
inductive Decodes (bytes : List UInt8) : Units → List Scanned → Prop
  | nil {u u' : Units} (h : u.nextChar = .ok none u') : Decodes bytes u []
  | cons {u u' : Units} {c : Char} {cs : List Scanned} (h : u.nextChar = .ok (some c) u')
      (hs : Decodes bytes u' cs) :
    Decodes bytes u (⟨c, u.offsetIn bytes, u'.offsetIn bytes⟩ :: cs)

theorem Decodes.decodeAll (h : u.Decodes bytes cs) :
    ∃ u', u.decodeAll = .ok (cs.map Scanned.char) u' := by
  induction h with
  | nil h => exact ⟨_, decodeAll_none h⟩
  | cons h _ ih =>
    obtain ⟨u', hall⟩ := ih
    exact ⟨u', decodeAll_some h hall⟩

theorem Brings.offsetIn {n : Nat} (h : u.Brings ((u.encoding.unitsOf bytes).drop n))
    (hn : n ≤ (u.encoding.unitsOf bytes).length) :
    u.offsetIn bytes = u.encoding.unitOffset 0 bytes n := by
  rw [Units.offsetIn, h.toCome, List.length_drop, Nat.sub_sub_self hn]

/-- Units that are all still to come of some bytes are decoded to the end.  The
characters take the bytes one after another, and each of them some. -/
theorem Brings.decodes {n : Nat} (h : u.Brings ((u.encoding.unitsOf bytes).drop n))
    (hn : n ≤ (u.encoding.unitsOf bytes).length) :
    ∃ cs, u.Decodes bytes cs ∧
      cs.flatMap (fun c => c.span.slice bytes) = bytes.drop (u.offsetIn bytes) ∧
      ∀ c ∈ cs, c.span.start < c.span.stop ∧ c.span.stop ≤ bytes.length ∧
        u.encoding.CharAt bytes c.span.start c.span.stop c.char := by
  -- On the units to come, of which a character takes the first.
  generalize hunits : (u.encoding.unitsOf bytes).drop n = units at h
  generalize he : u.encoding = e at hunits hn
  induction units using Strategy.induction_first .decode e generalizing u n with
  | nil =>
    obtain ⟨u', hnext, -⟩ := h.nextChar_nil
    subst he
    refine ⟨[], .nil hnext, ?_, List.forall_mem_nil _⟩
    rw [Brings.offsetIn (hunits.symm ▸ h) hn, Encoding.drop_unitOffset, List.flatMap_nil, eq_comm,
      ← Encoding.unitsOf_eq_nil u.encoding, Encoding.unitsOf_drop, hunits]
  | step units c rest hf ih =>
    subst he
    obtain ⟨u', hnext, h', he⟩ := h.nextChar hf
    obtain ⟨m, -, hm, rfl⟩ := Strategy.exists_drop_of_first (hunits ▸ hf)
    have hlt := Decode.length_lt_of_first hf
    rw [← hunits, List.length_drop, List.length_drop] at hlt
    obtain ⟨cs, hcs, htile, hspans⟩ := ih h' he rfl hm
    rw [← hunits] at h hf
    have hstart : u.offsetIn bytes = u.encoding.unitOffset 0 bytes n := Brings.offsetIn h hn
    have hstop : u'.offsetIn bytes = u.encoding.unitOffset 0 bytes m := by
      rw [← he] at h' hm ⊢
      exact Brings.offsetIn h' hm
    have hspan : u.offsetIn bytes < u'.offsetIn bytes := by
      rw [hstart, hstop]
      exact Encoding.unitOffset_lt (by omega) hm
    refine ⟨_, .cons hnext hcs, ?_, List.forall_mem_cons.mpr ⟨⟨hspan, ?_, ?_⟩, he ▸ hspans⟩⟩
    · rw [List.flatMap_cons, htile]
      exact Span.slice_append_drop (Nat.le_of_lt hspan) bytes
    · show u'.offsetIn bytes ≤ bytes.length
      rw [hstop, Encoding.unitOffset, Nat.zero_add]
      exact Nat.min_le_left ..
    · show u.encoding.CharAt bytes (u.offsetIn bytes) (u'.offsetIn bytes) c
      rw [hstart, hstop]
      exact Encoding.charAt_of_first (by omega) hm hf

end Units

/-- Decoding loses no byte, and takes only what a character is encoded as for
it: the characters of any bytes lie on spans that follow each other, none of
them empty, that are all of the bytes.  Whatever stands for no character is
U+FFFD. -/
theorem Units.decodeAll_canonical {source : Source} {bytes : List UInt8} {position : Nat}
    (e : Encoding) (h : source.Yields bytes position) :
    ∃ cs u, (ofSource source e).decodeAll = .ok (cs.map Scanned.char) u ∧
      (ofSource source e).Decodes bytes cs ∧
      cs.flatMap (fun c => c.span.slice bytes) = bytes ∧
      (∀ c ∈ cs, c.span.slice bytes ≠ [] ∧
        (c.char ≠ replacement → c.span.slice bytes = e.encodeChar c.char)) ∧
      ((∀ c ∈ cs, c.char ≠ replacement) → e.encode (cs.map Scanned.char) = bytes) ∧
      ∀ before form after, bytes = before ++ form ++ after → e.Malformed before form after →
        ∃ count, cs.map Scanned.char = e.decode (e.unitsOf before) ++
          List.replicate (count + 1) replacement ++ e.decode (e.unitsOf after) := by
  have hbrings := brings_ofSource e h
  have hstart : (ofSource source e).offsetIn bytes = e.unitOffset 0 bytes 0 :=
    Brings.offsetIn hbrings (Nat.zero_le _)
  obtain ⟨cs, hcs, htile, hspans⟩ := Brings.decodes hbrings (Nat.zero_le _)
  rw [hstart, Encoding.drop_unitOffset, Nat.mul_zero, List.drop_zero] at htile
  obtain ⟨u, hall⟩ := hcs.decodeAll
  have hcanonical : ∀ c ∈ cs, c.char ≠ replacement → c.span.slice bytes = e.encodeChar c.char := by
    intro c hmem hc
    obtain ⟨hrepresents, hslice⟩ : e.represents c.char ∧ c.span.slice bytes = e.charBytes c.char :=
      (hspans c hmem).2.2 hc
    rw [Encoding.encodeChar, if_pos hrepresents, hslice]
  have htext : cs.map Scanned.char = e.decode (e.unitsOf bytes) := by
    obtain ⟨u', hall', -⟩ := hbrings.decodeAll
    exact (EStateM.Result.ok.inj (hall.symm.trans hall')).1
  refine ⟨cs, u, hall, hcs, htile, fun c hmem => ⟨?_, hcanonical c hmem⟩, fun hnone => ?_, ?_⟩
  · obtain ⟨hlt, hle, -⟩ := hspans c hmem
    refine List.ne_nil_of_length_pos ?_
    have hlength : (c.span.slice bytes).length = c.span.stop - c.span.start := Span.length_slice hle
    omega
  · rw [Encoding.encode, List.flatMap_map, ← htile]
    exact List.flatMap_congr fun c hmem => (hcanonical c hmem (hnone c hmem)).symm
  · rintro before form after rfl hmalformed
    rw [htext]
    exact Encoding.decode_malformed hmalformed

/-- A surrogate between two characters. -/
theorem Units.decodeAll_canonical_surrogate :
    let bytes : List UInt8 := [0x61, 0xED, 0xA0, 0x80, 0xE2, 0x82, 0xAC]
    (Source.ofBytes bytes).Yields bytes 0 ∧
      Encoding.utf8.Malformed [0x61] [0xED, 0xA0, 0x80] [0xE2, 0x82, 0xAC] ∧
      ∃ (cs : List Scanned) (u : Units) (count : Nat),
        (ofSource (.ofBytes bytes) .utf8).decodeAll = .ok (cs.map Scanned.char) u ∧
        cs.flatMap (fun c => c.span.slice bytes) = bytes ∧
        cs.map Scanned.char = ['a'] ++ List.replicate (count + 1) '\uFFFD' ++ ['€'] := by
  intro bytes
  have hyields : (Source.ofBytes bytes).Yields bytes 0 := Source.yields_ofBytes bytes
  have hmalformed : Encoding.utf8.Malformed [0x61] [0xED, 0xA0, 0x80] [0xE2, 0x82, 0xAC] :=
    .sequence (.inl rfl) (.three (by decide) (by decide) (by decide)) (.inr (by decide))
  obtain ⟨cs, u, hall, -, htile, -, -, hreplaced⟩ := decodeAll_canonical .utf8 hyields
  obtain ⟨count, htext⟩ := hreplaced _ _ _ rfl hmalformed
  rw [Encoding.unitsOf_eq_map rfl, Encoding.unitsOf_eq_map rfl] at htext
  exact ⟨hyields, hmalformed, cs, u, count, hall, htile, htext⟩

end Tabular
