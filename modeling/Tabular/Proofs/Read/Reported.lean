/-
The offset that a reader reports, whatever its bytes.

* `Encoding.breaksOff_iff` — which bytes break off;
* `Units.Aligned` — a source that is where a unit begins;
* `Units.Reached`, `Units.Past` — a reader of so many units, and one that has
  read them character by character, with what it has put back;
* `Units.Past.position` — it reports where the next unit begins, unless that
  one is all that is left of bytes that break off;
* `Units.position_nextChars` — so it does after any number of characters, but
  for one.

Design notes: which units are still to come does not depend on where the source
is.  So `Past` keeps the two apart, and says by itself when a unit has been put
back: the source is then one unit ahead of the reader, and that unit may have
fewer bytes than are taken off for it.
-/
import Tabular.Proofs.Read.Spans

namespace Tabular

namespace Decode

variable {e : Encoding} {unit next : Nat} {v : Unfinished} {d : Decoded}

/-- Where a unit is more than a byte, only a high surrogate begins a character
of several. -/
theorem surrogate_of_start (h : start e unit = .more v) (hwide : e.unitWidth ≠ 1) :
    (e = .utf16le ∨ e = .utf16be) ∧ IsHighSurrogate unit ∧ v = .surrogate unit := by
  have hutf16 : startUtf16 unit = .more v → IsHighSurrogate unit ∧ v = .surrogate unit := by
    intro hs
    rw [startUtf16] at hs
    split at hs
    · rename_i hhigh
      exact ⟨hhigh, (Decoded.more.inj hs).symm⟩
    · exact absurd hs (by simp)
  cases e with
  | unknown | utf8 | latin1 | windows1252 => exact absurd rfl hwide
  | utf16le => exact ⟨.inl rfl, hutf16 h⟩
  | utf16be => exact ⟨.inr rfl, hutf16 h⟩
  | ucs2le | ucs2be | utf32le | utf32be | ucs4le | ucs4be => exact absurd h (by simp [start])

/-- What completes such a character does not begin one. -/
theorem start_ne_more_of_feed (h : start e unit = .more v) (hwide : e.unitWidth ≠ 1)
    (hd : v.feed next = some d) (v' : Unfinished) : start e next ≠ .more v' := by
  obtain ⟨-, -, rfl⟩ := surrogate_of_start h hwide
  intro hnext
  obtain ⟨-, ⟨-, hle⟩, -⟩ := surrogate_of_start hnext hwide
  rw [Unfinished.feed] at hd
  split at hd
  · omega
  · exact absurd hd (by simp)

end Decode

namespace Encoding

variable {e : Encoding} {bytes : List UInt8} {units : List Nat} {n : Nat}

/-- Whether the next unit has been looked at already after the first `n` of
some: there is one, and the unit before it begins a character of several. -/
def LooksAhead (e : Encoding) (units : List Nat) (n : Nat) : Prop :=
  n < units.length ∧ ∃ k unit v, n = k + 1 ∧ units[k]? = some unit ∧ Decode.start e unit = .more v

theorem looksAhead_succ {unit : Nat} (hunit : units[n]? = some unit) :
    e.LooksAhead units (n + 1) ↔ n + 1 < units.length ∧ ∃ v, Decode.start e unit = .more v := by
  refine and_congr_right fun _ => ⟨?_, fun ⟨v, hv⟩ => ⟨n, unit, v, rfl, hunit, hv⟩⟩
  rintro ⟨k, unit', v, hk, hunit', hv⟩
  obtain rfl := Nat.succ.inj hk
  obtain rfl := Option.some.inj (hunit.symm.trans hunit')
  exact ⟨v, hv⟩

theorem pairs_iff (hn : n + 1 = units.length) : e.Pairs units ↔ e.LooksAhead units n := by
  constructor
  · rintro ⟨unit, last, v, ⟨before, rfl⟩, hv⟩
    rw [List.length_append, List.length_cons, List.length_singleton] at hn
    obtain rfl : n = before.length + 1 := by omega
    refine ⟨by simp, before.length, unit, v, rfl, ?_, hv⟩
    rw [List.getElem?_append_right (Nat.le_refl _), Nat.sub_self, List.getElem?_cons_zero]
  · rintro ⟨hlt, k, unit, v, rfl, hunit, hv⟩
    obtain ⟨hk, rfl⟩ := List.getElem?_eq_some_iff.mp hunit
    refine ⟨units[k], units[k + 1], v, ?_, hv⟩
    have hdrop : units.drop k = [units[k], units[k + 1]] := by
      rw [List.drop_eq_getElem_cons hk, List.drop_eq_getElem_cons hlt,
        List.drop_eq_nil_of_le (by omega)]
    exact hdrop ▸ List.drop_suffix k units

/-- The last unit of bytes is cut short just if they do not end with a whole
one. -/
theorem length_lt_unitWidth_mul_iff (hn : n < (e.unitsOf bytes).length) :
    bytes.length < e.unitWidth * (n + 1) ↔
      ¬ e.unitWidth ∣ bytes.length ∧ n + 1 = (e.unitsOf bytes).length := by
  have hlow := unitWidth_mul_lt hn
  constructor
  · intro hlt
    refine ⟨Nat.not_dvd_of_lt_of_lt_mul_succ hlow hlt, Nat.le_antisymm hn ?_⟩
    exact Nat.le_of_not_lt fun hmore => Nat.lt_asymm hlt (unitWidth_mul_lt hmore)
  · rintro ⟨hdvd, hlast⟩
    have hle := e.length_le_unitsOf bytes
    rw [← hlast] at hle
    exact Nat.lt_of_le_of_ne hle fun heq => hdvd (heq ▸ Nat.dvd_mul_right ..)

/-- A unit that is cut short is the last. -/
theorem exists_unitsOf_of_cut (hcut : ¬ e.unitWidth ∣ bytes.length) :
    ∃ units, e.unitsOf bytes = units ++ [replacement.toNat] := by
  fun_induction unitsOf e bytes with
  | case1 => exact absurd (Nat.dvd_zero _) hcut
  | case2 b bytes ih =>
    by_cases hlt : (b :: bytes).length < e.unitWidth
    · refine ⟨[], ?_⟩
      rw [if_pos hlt, List.drop_eq_nil_of_le (Nat.le_of_lt hlt), unitsOf_nil]
      rfl
    · have hrest : ¬ e.unitWidth ∣ ((b :: bytes).drop e.unitWidth).length := by
        rw [List.length_drop, Nat.dvd_sub_iff_left (Nat.le_of_not_lt hlt) (Nat.dvd_refl _)]
        exact hcut
      obtain ⟨units, hunits⟩ := ih hrest
      exact ⟨_, by rw [hunits, List.cons_append]⟩

/-- Bytes break off if they are of UTF-16, an odd number of them, and the last
whole unit is a high surrogate. -/
theorem breaksOff_iff : e.BreaksOff bytes ↔
    (e = utf16le ∨ e = utf16be) ∧ ¬ 2 ∣ bytes.length ∧
      ∃ high, IsHighSurrogate high ∧ [high, replacement.toNat] <:+ e.unitsOf bytes := by
  constructor
  · rintro ⟨hcut, high, last, v, hsuffix, hv⟩
    obtain ⟨he, hhigh, -⟩ := Decode.surrogate_of_start hv fun hone => hcut (hone ▸ Nat.one_dvd _)
    obtain ⟨units, hunits⟩ := exists_unitsOf_of_cut hcut
    obtain rfl : last = replacement.toNat := by
      obtain ⟨before, hbefore⟩ := hsuffix
      have hlast := congrArg List.getLast? (hbefore.trans hunits)
      simpa using hlast
    refine ⟨he, ?_, high, hhigh, hsuffix⟩
    rcases he with rfl | rfl <;> exact hcut
  · rintro ⟨he, hcut, high, hhigh, hsuffix⟩
    refine ⟨?_, high, _, .surrogate high, hsuffix, ?_⟩
    · rcases he with rfl | rfl <;> exact hcut
    · exact Decode.start_high he hhigh

end Encoding

namespace Units

/-! ### Where the source is -/

/-- The source is where a unit of the bytes from offset `start` on begins, or at
their end. -/
def Aligned (u : Units) (start : Nat) (bytes : List UInt8) : Prop :=
  ∃ k, u.source.Yields (bytes.drop (u.encoding.unitWidth * k)) (u.encoding.unitOffset start bytes k)

/-- The source goes on to the next unit, unless one had been put back. -/
theorem Aligned.next {u u' : Units} {start : Nat} {bytes : List UInt8} {unit : Option Nat}
    (h : u.Aligned start bytes) (hnext : u.next = .ok unit u') : u'.Aligned start bytes := by
  obtain ⟨source, e, pushed⟩ := u
  obtain ⟨k, hyields⟩ := h
  dsimp only at hyields
  cases pushed with
  | some x =>
    obtain ⟨-, rfl⟩ := EStateM.Result.ok.inj hnext
    exact ⟨k, hyields⟩
  | none =>
    obtain ⟨source', ht, hyields'⟩ := next_of_yields hyields e
    have hoffset : e.unitOffset start bytes k +
        min e.unitWidth (bytes.drop (e.unitWidth * k)).length =
          e.unitOffset start bytes (k + 1) := by
      rw [List.length_drop, Encoding.unitOffset, Encoding.unitOffset, Nat.mul_succ]
      omega
    rw [List.drop_drop, ← Nat.mul_succ, hoffset] at hyields'
    obtain ⟨-, rfl⟩ := EStateM.Result.ok.inj (ht.symm.trans hnext)
    exact ⟨k + 1, hyields'⟩

/-! ### What has been put back -/

variable {u u' : Units} {e : Encoding} {start n m count : Nat} {bytes : List UInt8}

theorem Brings.unique {units units' : List Nat} (h : u.Brings units) (h' : u.Brings units') :
    units = units' := h.toCome.symm.trans h'.toCome

theorem Brings.pushed_of_nil (h : u.Brings []) : u.pushed = none := by
  simpa using (List.append_eq_nil_iff.mp h.toCome).1

/-- Where one unit would complete a character, it is put back just if it does
not. -/
theorem Brings.pushed_of_finish {v : Unfinished} {c : Char} {units : List Nat}
    (h : u.Brings units) (hv : v.missing = 0) (hfinish : u.finish v = .ok c u') :
    u'.Brings [] ∧ units = [] ∨ ∃ unit more, units = unit :: more ∧
      (u'.Brings units ∧ u'.pushed.isSome ∨
        u'.Brings more ∧ u'.pushed = none ∧ ∃ d, v.feed unit = some d) := by
  rw [Units.finish] at hfinish
  cases units with
  | nil =>
    obtain ⟨t, ht, hbrings, -⟩ := h.next_nil
    rw [ht] at hfinish
    obtain ⟨-, rfl⟩ := EStateM.Result.ok.inj hfinish
    exact .inl ⟨hbrings, rfl⟩
  | cons unit more =>
    refine .inr ⟨unit, more, rfl, ?_⟩
    obtain ⟨t, ht, hbrings, hp, -⟩ := h.next
    rw [ht] at hfinish
    dsimp only at hfinish
    split at hfinish
    · obtain ⟨-, rfl⟩ := EStateM.Result.ok.inj hfinish
      exact .inl ⟨hbrings.unread hp unit, rfl⟩
    · rename_i d hfeed
      obtain ⟨-, rfl⟩ := EStateM.Result.ok.inj hfinish
      exact .inr ⟨hbrings, hp, _, hfeed⟩
    · rename_i v' hfeed
      exact absurd (hv ▸ Unfinished.missing_lt_of_feed hfeed) (Nat.not_lt_zero _)

/-- Where a unit is more than a byte, one has been put back after a character
just if it has been looked at. -/
theorem Brings.pushed_of_nextChar {c : Char} {units : List Nat} (hwide : u.encoding.unitWidth ≠ 1)
    (h : u.Brings (units.drop n)) (hnext : u.nextChar = .ok (some c) u')
    (h' : u'.Brings (units.drop m)) (hm : m ≤ units.length) :
    u'.pushed.isSome ↔ u.encoding.LooksAhead units m := by
  have hcount : ∀ {k : Nat}, u'.Brings (units.drop k) → k ≤ units.length → m = k := by
    intro k hbrings hk
    have hlength := congrArg List.length (h'.unique hbrings)
    rw [List.length_drop, List.length_drop] at hlength
    omega
  have hn : n < units.length := by
    rw [← Nat.not_le, ← List.drop_eq_nil_iff]
    intro hnil
    obtain ⟨t, hnone, -⟩ := (hnil ▸ h).nextChar_nil
    exact absurd (hnone.symm.trans hnext) (by simp)
  have hunit : units[n]? = some units[n] := List.getElem?_eq_getElem hn
  rw [List.drop_eq_getElem_cons hn] at h
  obtain ⟨t, ht, hbrings, hp, he⟩ := h.next
  rw [Units.nextChar, ht] at hnext
  dsimp only at hnext
  rw [he] at hnext
  cases hs : Decode.start u.encoding units[n] with
  | char d =>
    rw [hs] at hnext
    obtain ⟨-, rfl⟩ := EStateM.Result.ok.inj hnext
    obtain rfl := hcount hbrings hn
    rw [hp, Encoding.looksAhead_succ hunit, hs]
    simp
  | more v =>
    rw [hs] at hnext
    dsimp only at hnext
    split at hnext
    · exact absurd hnext (by simp)
    rename_i d t' hfinish
    obtain ⟨-, rfl⟩ := EStateM.Result.ok.inj hnext
    obtain ⟨hend, -⟩ | ⟨unit, more, hmore, hafter⟩ :=
      hbrings.pushed_of_finish (Decode.missing_of_start hs hwide) hfinish
    · rw [hend.pushed_of_nil]
      refine iff_of_false (by simp) fun hahead => Nat.not_le_of_lt hahead.1 ?_
      exact List.drop_eq_nil_iff.mp (h'.unique hend)
    · have hlast : n + 1 < units.length := by
        rw [← Nat.not_le, ← List.drop_eq_nil_iff, hmore]
        simp
      obtain ⟨hback, hpushed⟩ | ⟨htaken, hpushed, _, hfeed⟩ := hafter
      · obtain rfl := hcount hback hn
        rw [Encoding.looksAhead_succ hunit]
        exact iff_of_true hpushed ⟨hlast, v, hs⟩
      · obtain ⟨rfl, rfl⟩ := List.cons.inj ((List.drop_eq_getElem_cons hlast).symm.trans hmore)
        obtain rfl := hcount htaken hlast
        rw [hpushed, Encoding.looksAhead_succ (List.getElem?_eq_getElem hlast)]
        refine iff_of_false (by simp) ?_
        rintro ⟨-, v', hv'⟩
        exact Decode.start_ne_more_of_feed hs hwide hfeed v' hv'

/-! ### Readers of characters -/

/-- A reader of the bytes from offset `start` on, of which the first `n` units
have been read. -/
structure Reached (u : Units) (e : Encoding) (start : Nat) (bytes : List UInt8) (n : Nat) :
    Prop where
  encoding : u.encoding = e
  count_le : n ≤ (e.unitsOf bytes).length
  brings : u.Brings ((e.unitsOf bytes).drop n)
  aligned : u.Aligned start bytes
  /-- In UTF-8, a unit that is put back may come after any unit of a character. -/
  looksAhead : e.unitWidth ≠ 1 → u.pushed.isSome → e.LooksAhead (e.unitsOf bytes) n

/-- A reader that has read them character by character. -/
structure Past (u : Units) (e : Encoding) (start : Nat) (bytes : List UInt8) (n : Nat) : Prop
    extends u.Reached e start bytes n where
  pushed : e.unitWidth ≠ 1 → e.LooksAhead (e.unitsOf bytes) n → u.pushed.isSome

/-- A reader goes on with the units that it is to deliver, its source at the
beginning of one. -/
theorem tracks_aligned (e : Encoding) (start : Nat) (bytes : List UInt8) :
    Tracks e fun u units => u.encoding = e ∧ u.Brings units ∧ u.Aligned start bytes where
  encoding h := h.1
  next_nil := by
    rintro u ⟨he, hbrings, haligned⟩
    obtain ⟨u', hnext, hbrings', he'⟩ := hbrings.next_nil
    exact ⟨u', hnext, he'.trans he, hbrings', haligned.next hnext⟩
  next := by
    rintro u unit units ⟨he, hbrings, haligned⟩
    obtain ⟨u', hnext, hbrings', hp, he'⟩ := hbrings.next
    have haligned' := haligned.next hnext
    exact ⟨u', hnext, ⟨he'.trans he, hbrings', haligned'⟩, he'.trans he, hbrings'.unread hp unit,
      haligned'⟩

namespace Reached

theorem next_nil (h : u.Reached e start bytes n) (hunits : (e.unitsOf bytes).drop n = []) :
    ∃ u', u.next = .ok none u' ∧ u'.Reached e start bytes n ∧ u'.pushed = none := by
  obtain ⟨he, hn, hbrings, haligned, -⟩ := h
  obtain ⟨u', hnext, hbrings', he'⟩ := (hunits ▸ hbrings).next_nil
  have hp := hbrings'.pushed_of_nil
  exact ⟨u', hnext, ⟨he'.trans he, hn, hunits ▸ hbrings', haligned.next hnext, by simp [hp]⟩, hp⟩

theorem next (h : u.Reached e start bytes n) {unit : Nat} {units : List Nat}
    (hunits : (e.unitsOf bytes).drop n = unit :: units) :
    ∃ u', u.next = .ok (some unit) u' ∧ u'.Reached e start bytes (n + 1) ∧ u'.pushed = none ∧
      units = (e.unitsOf bytes).drop (n + 1) := by
  obtain ⟨he, -, hbrings, haligned, -⟩ := h
  obtain ⟨u', hnext, hbrings', hp, he'⟩ := (hunits ▸ hbrings).next
  have hn : n < (e.unitsOf bytes).length := by
    rw [← Nat.not_le, ← List.drop_eq_nil_iff, hunits]
    exact List.cons_ne_nil unit units
  obtain ⟨-, rfl⟩ := List.cons.inj ((List.drop_eq_getElem_cons hn).symm.trans hunits)
  exact ⟨u', hnext, ⟨he'.trans he, hn, hbrings', haligned.next hnext, by simp [hp]⟩, hp, rfl⟩

/-- A character that the units that are left begin with is read. -/
theorem nextChar_of_first (h : u.Reached e start bytes n) {c : Char} {rest : List Nat}
    (hf : Decode.first e ((e.unitsOf bytes).drop n) = some (c, rest)) :
    ∃ u' m, n ≤ m ∧ u.nextChar = .ok (some c) u' ∧ u'.Past e start bytes m ∧
      rest = (e.unitsOf bytes).drop m := by
  obtain ⟨rfl, hn, hbrings, haligned, -⟩ := h
  obtain ⟨m, hle, hm, rfl⟩ := Strategy.exists_drop_of_first (s := .decode) hf
  obtain ⟨u', hnext, he, hbrings', haligned'⟩ :=
    (tracks_aligned u.encoding start bytes).nextChar ⟨rfl, hbrings, haligned⟩ hf
  have hpushed hwide := hbrings.pushed_of_nextChar hwide hnext hbrings' hm
  exact ⟨u', m, hle, hnext, ⟨⟨he, hm, hbrings', haligned', fun hwide => (hpushed hwide).mp⟩,
    fun hwide => (hpushed hwide).mpr⟩, rfl⟩

/-- What has been read of the source are those units, and one that has been put
back. -/
theorem source_position (h : u.Reached e start bytes n) :
    u.source.position = e.unitOffset start bytes (n + u.pushed.toList.length) := by
  obtain ⟨rfl, hn, hbrings, ⟨k, hyields⟩, -⟩ := h
  have hle := u.encoding.length_le_unitsOf bytes
  have hlength := congrArg List.length hbrings.toCome
  rw [toCome, hyields.rest, Encoding.unitsOf_drop, List.length_append, List.length_drop,
    List.length_drop] at hlength
  rw [hyields.position]
  by_cases hk : k ≤ (u.encoding.unitsOf bytes).length
  · congr 1
    omega
  · -- The source has been asked for more after its end.
    have hmul := Nat.mul_le_mul_left u.encoding.unitWidth (Nat.le_of_not_le hk)
    rw [show n + u.pushed.toList.length = (u.encoding.unitsOf bytes).length by omega,
      Encoding.unitOffset, Encoding.unitOffset]
    omega

/-- The offset that is reported is the one after those units if none has been
put back. -/
theorem position_of_none (h : u.Reached e start bytes n) (hp : u.pushed = none) :
    u.position = e.unitOffset start bytes n := by
  rw [Units.position, h.source_position, hp]
  rfl

/-- And if one has been put back, unless that one is cut short. -/
theorem position_of_some (h : u.Reached e start bytes n) (hp : u.pushed.isSome) :
    u.position = e.unitOffset start bytes n ∧
        ¬ (e.BreaksOff bytes ∧ n + 1 = (e.unitsOf bytes).length) ∨
      u.position + 1 = e.unitOffset start bytes n ∧
        e.BreaksOff bytes ∧ n + 1 = (e.unitsOf bytes).length := by
  have hn : n < (e.unitsOf bytes).length := by
    obtain ⟨unit, hunit⟩ := Option.isSome_iff_exists.mp hp
    rw [← Nat.not_le, ← List.drop_eq_nil_iff, ← h.brings.toCome, toCome, hunit]
    exact List.cons_ne_nil unit _
  have hcount : u.pushed.toList.length = 1 := by
    obtain ⟨unit, hunit⟩ := Option.isSome_iff_exists.mp hp
    rw [hunit]
    rfl
  have hlow := Encoding.unitWidth_mul_lt hn
  rw [Units.position, h.source_position, h.encoding, hcount, if_pos hp]
  by_cases hcut : bytes.length < e.unitWidth * (n + 1)
  · obtain ⟨hdvd, hlast⟩ := (Encoding.length_lt_unitWidth_mul_iff hn).mp hcut
    have hahead := h.looksAhead (fun hone => hdvd (hone ▸ Nat.one_dvd _)) hp
    have hbreak : e.BreaksOff bytes := ⟨hdvd, (Encoding.pairs_iff hlast).mpr hahead⟩
    refine .inr ⟨?_, hbreak, hlast⟩
    -- The unit has one byte, and is taken to have two.
    have hw : e.unitWidth = 2 := by
      obtain ⟨rfl | rfl, -⟩ := Encoding.breaksOff_iff.mp hbreak <;> rfl
    obtain ⟨-, k, -, -, rfl, -⟩ := hahead
    rw [hw] at hcut hlow
    rw [Encoding.unitOffset, Encoding.unitOffset, hw]
    omega
  · refine .inl ⟨?_, fun hbreak => hcut ?_⟩
    · rw [Encoding.unitOffset, Encoding.unitOffset, Nat.mul_succ] at *
      omega
    · exact (Encoding.length_lt_unitWidth_mul_iff hn).mpr ⟨hbreak.1.1, hbreak.2⟩

end Reached

namespace Past

theorem ofSource {source : Source} (h : source.Yields bytes start) (e : Encoding) :
    (Units.ofSource source e).Past e start bytes 0 := by
  refine ⟨⟨rfl, Nat.zero_le _, brings_ofSource e h, ⟨0, ?_⟩, ?_⟩, ?_⟩
  · show source.Yields (bytes.drop (e.unitWidth * 0)) (e.unitOffset start bytes 0)
    rw [Encoding.unitOffset, Nat.mul_zero, Nat.add_zero, Nat.min_eq_right (Nat.le_add_right ..)]
    exact h
  · simp [Units.ofSource]
  · rintro - ⟨-, k, -, -, hk, -⟩
    exact absurd hk.symm (Nat.succ_ne_zero k)

/-- The next character is the first of those that are left. -/
theorem nextChar (h : u.Past e start bytes n) :
    ∃ u' m, u.nextChar = .ok (e.decode ((e.unitsOf bytes).drop n)).head? u' ∧
      u'.Past e start bytes m ∧
      e.decode ((e.unitsOf bytes).drop m) = (e.decode ((e.unitsOf bytes).drop n)).tail := by
  cases hunits : (e.unitsOf bytes).drop n with
  | nil =>
    obtain ⟨u', hnext, h', -⟩ := h.next_nil hunits
    refine ⟨u', n, ?_, ⟨h', fun _ hahead => ?_⟩, by rw [hunits]; rfl⟩
    · rw [Units.nextChar, hnext]
      rfl
    · exact absurd (List.drop_eq_nil_iff.mp hunits) (Nat.not_le_of_lt hahead.1)
  | cons unit units =>
    obtain ⟨c, rest, hf⟩ := Decode.exists_first e unit units
    obtain ⟨u', m, -, hnext, h', rfl⟩ := h.nextChar_of_first (hunits ▸ hf)
    rw [Decode.decode_of_first hf]
    exact ⟨u', m, hnext, h', rfl⟩

/-- The offset that is reported is the one after those units, unless a unit that
is cut short has been put back. -/
theorem position (h : u.Past e start bytes n) :
    u.position = e.unitOffset start bytes n ∧
        ¬ (e.BreaksOff bytes ∧ n + 1 = (e.unitsOf bytes).length) ∨
      u.position + 1 = e.unitOffset start bytes n ∧
        e.BreaksOff bytes ∧ n + 1 = (e.unitsOf bytes).length := by
  by_cases hp : u.pushed.isSome
  · exact h.position_of_some hp
  · refine .inl ⟨h.position_of_none (Option.not_isSome_iff_eq_none.mp hp), ?_⟩
    rintro ⟨⟨hcut, hpairs⟩, hlast⟩
    exact hp (h.pushed (fun hone => hcut (hone ▸ Nat.one_dvd _))
      ((Encoding.pairs_iff hlast).mp hpairs))

end Past

/-! ### Any number of characters -/

/-- What comes of asking for a character so many times. -/
def nextChars : Nat → Units → Attempt Units (List (Option Char))
  | 0, u => .ok [] u
  | count + 1, u =>
    match u.nextChar with
    | .error e u => .error e u
    | .ok c u =>
      match nextChars count u with
      | .error e u => .error e u
      | .ok cs u => .ok (c :: cs) u

/-- The characters are the next of those that are left, and none once there are
none left. -/
theorem Past.nextChars (h : u.Past e start bytes n) (count : Nat) :
    ∃ u' m, u.nextChars count =
        .ok ((List.range count).map fun i => (e.decode ((e.unitsOf bytes).drop n))[i]?) u' ∧
      u'.Past e start bytes m ∧
      e.decode ((e.unitsOf bytes).drop m) = (e.decode ((e.unitsOf bytes).drop n)).drop count := by
  induction count generalizing u n with
  | zero => exact ⟨u, n, rfl, h, rfl⟩
  | succ count ih =>
    obtain ⟨u', m, hnext, h', htail⟩ := h.nextChar
    obtain ⟨u'', m', hnexts, h'', hdrop⟩ := ih h'
    refine ⟨u'', m', ?_, h'', ?_⟩
    · rw [Units.nextChars, hnext]
      dsimp only
      rw [hnexts, htail, List.range_succ_eq_map, List.map_cons, List.map_map,
        List.head?_eq_getElem?]
      simp only [Function.comp_def, List.getElem?_tail]
    · rw [hdrop, htail, List.drop_tail]

end Units

namespace Encoding

variable {e : Encoding} {bytes : List UInt8} {units : List Nat} {n : Nat}

theorem decode_eq_nil_iff : e.decode units = [] ↔ units = [] := by
  cases units with
  | nil => simp
  | cons unit units =>
    obtain ⟨c, rest, hf⟩ := Decode.exists_first e unit units
    rw [Decode.decode_of_first hf]
    simp

/-- A unit that is cut short is a character of its own, so it is the last
character that is left just if it is the last unit. -/
theorem length_decode_drop (hcut : ¬ e.unitWidth ∣ bytes.length) (n : Nat) :
    (e.decode ((e.unitsOf bytes).drop n)).length = 1 ↔ n + 1 = (e.unitsOf bytes).length := by
  have hwide : 1 < e.unitWidth :=
    Nat.lt_of_le_of_ne e.unitWidth_pos fun hone => hcut (hone ▸ Nat.one_dvd _)
  obtain ⟨units, hunits⟩ := exists_unitsOf_of_cut hcut
  rw [hunits, List.length_append, List.length_singleton] at *
  by_cases hle : n ≤ units.length
  · rw [List.drop_append_of_le_length hle, Decode.decode_append_replacement,
      Decode.decode_cons_replacement (start_replacement hwide), List.length_append,
      Decode.decode_nil, List.length_singleton, Nat.add_eq_right, List.length_eq_zero_iff,
      decode_eq_nil_iff, List.drop_eq_nil_iff]
    omega
  · have hnil : (units ++ [replacement.toNat]).drop n = [] := by
      rw [List.drop_eq_nil_iff, List.length_append, List.length_singleton]
      omega
    rw [hnil]
    exact iff_of_false (by simp) (by omega)

end Encoding

/-- The offset that is reported is the number of bytes of the units that have
been read, one that has been put back not among them, whatever the bytes and
however many characters have been asked for.  Only where bytes of UTF-16 break
off, and all characters but the last have been read, it comes one byte before,
since the byte that is left has been put back as if it were two. -/
theorem Units.position_nextChars (e : Encoding) (bytes : List UInt8) (count : Nat) :
    ∃ u before after,
      (ofSource (.ofBytes bytes) e).nextChars count =
        .ok ((List.range count).map fun i => (e.decode (e.unitsOf bytes))[i]?) u ∧
      bytes = before ++ after ∧ (e.unitWidth ∣ before.length ∨ after = []) ∧
      u.toCome u.source.rest = e.unitsOf after ∧
      (u.position = before.length ↔
        ¬ (e.BreaksOff bytes ∧ count + 1 = (e.decode (e.unitsOf bytes)).length)) ∧
      (u.position ≠ before.length →
        (e = .utf16le ∨ e = .utf16be) ∧ after.length = 1 ∧ u.position + 1 = before.length) := by
  obtain ⟨u, n, hnexts, h, hleft⟩ :=
    (Past.ofSource (Source.yields_ofBytes bytes) e).nextChars count
  rw [List.drop_zero] at hnexts hleft
  have hbefore : (bytes.take (e.unitWidth * n)).length = e.unitOffset 0 bytes n := by
    rw [List.length_take, Encoding.unitOffset]
    omega
  refine ⟨u, bytes.take (e.unitWidth * n), bytes.drop (e.unitWidth * n), hnexts,
    (List.take_append_drop ..).symm, ?_, ?_, ?_⟩
  · rcases Nat.le_total (e.unitWidth * n) bytes.length with hle | hle
    · rw [List.length_take_of_le hle]
      exact .inl (Nat.dvd_mul_right ..)
    · exact .inr (List.drop_eq_nil_of_le hle)
  · rw [h.brings.toCome, Encoding.unitsOf_drop]
  -- All characters but the last have been read just if all units but the last have.
  have hlast : e.BreaksOff bytes ∧ count + 1 = (e.decode (e.unitsOf bytes)).length ↔
      e.BreaksOff bytes ∧ n + 1 = (e.unitsOf bytes).length := by
    refine and_congr_right fun hbreak => ?_
    rw [← Encoding.length_decode_drop hbreak.1, hleft, List.length_drop]
    omega
  rw [hlast, hbefore]
  rcases h.position with ⟨hposition, hgoes⟩ | ⟨hposition, hbreak⟩
  · exact ⟨iff_of_true hposition hgoes, fun hne => absurd hposition hne⟩
  · refine ⟨iff_of_false (by omega) (not_not_intro hbreak), fun _ => ?_⟩
    have he := (Encoding.breaksOff_iff.mp hbreak.1).1
    refine ⟨he, ?_, hposition⟩
    have hw : e.unitWidth = 2 := by rcases he with rfl | rfl <;> rfl
    have hlt : n < (e.unitsOf bytes).length := by omega
    have hlow := Encoding.unitWidth_mul_lt hlt
    have hhigh := (Encoding.length_lt_unitWidth_mul_iff hlt).mpr ⟨hbreak.1.1, hbreak.2⟩
    rw [List.length_drop, hw] at *
    omega

/-- A byte is left after a high surrogate, and counts as two. -/
example : ∃ u, (Units.ofSource (.ofBytes [0x3D, 0xD8, 0x41]) .utf16le).nextChars 1 =
    .ok [some '\uFFFD'] u ∧ u.toCome u.source.rest = [0xFFFD] ∧ u.position = 1 := by
  refine ⟨⟨⟨[], ⟨[], []⟩, 3, 3⟩, .utf16le, some 0xFFFD⟩, ?_, ?_, rfl⟩
  · cbv
  · cbv

end Tabular
