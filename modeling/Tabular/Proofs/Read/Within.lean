/-
Readers within the bytes of a text.

* `Units.Within`, `Chars.Within` — units and characters of so many bytes, of
  which some have been read;
* `Units.Within.scan` — a character takes the bytes that it is encoded as,
  unless it is U+FFFD, and takes some in any case;
* `Chars.Within.next`, `Chars.keeps_bytes`, `Chars.keeps_within` — they stay
  so, and what is reported of where the reader is only ever grows;
* `Chars.Within.exists_gives` — the characters still to come.

Design notes: nothing is asked of the bytes.  Where they end within a unit
that has been put back, the offset that is reported is not that of the unit,
but it still lies after all that has been read before.
-/
import Tabular.Proofs.Read.Keeps
import Tabular.Proofs.Text.Canonical

namespace Tabular

namespace Span

variable {start middle stop : Nat} {bytes : List UInt8}

theorem drop_stop (h : start ≤ stop) (bytes : List UInt8) :
    bytes.drop stop = (bytes.drop start).drop (stop - start) := by
  rw [List.drop_drop, Nat.add_sub_cancel' h]

theorem slice_append (h : start ≤ middle) (h' : middle ≤ stop) (bytes : List UInt8) :
    (Span.mk start middle).slice bytes ++ (Span.mk middle stop).slice bytes =
      (Span.mk start stop).slice bytes := by
  have hsum : stop - start = (middle - start) + (stop - middle) := by omega
  rw [slice, slice, slice, drop_stop h, hsum, List.take_add]

theorem slice_append_drop (h : start ≤ stop) (bytes : List UInt8) :
    (Span.mk start stop).slice bytes ++ bytes.drop stop = bytes.drop start := by
  rw [slice, drop_stop h, List.take_append_drop]

theorem length_slice (h : stop ≤ bytes.length) :
    ((Span.mk start stop).slice bytes).length = stop - start := by
  rw [slice, List.length_take, List.length_drop]
  exact Nat.min_eq_left (Nat.sub_le_sub_right h start)

end Span

namespace Encoding

/-- A unit of bytes from one offset to another: it is stored there, or the end
of the bytes cuts it short. -/
def UnitAt (e : Encoding) (bytes : List UInt8) (start stop unit : Nat) : Prop :=
  stop = start + e.unitWidth ∧ unit < 256 ^ e.unitWidth ∧
    (Span.mk start stop).slice bytes = e.unitBytes unit ∨
  stop = bytes.length ∧ unit = replacement.toNat ∧ 1 < e.unitWidth

/-- The bytes between two offsets are those of a character, unless it is
U+FFFD. -/
def CharAt (e : Encoding) (bytes : List UInt8) (start stop : Nat) (c : Char) : Prop :=
  c ≠ replacement → e.represents c ∧ (Span.mk start stop).slice bytes = e.charBytes c

variable {e : Encoding} {bytes : List UInt8} {start stop unit : Nat} {c : Char}

/-- A unit that is cut short does not begin a character of several. -/
theorem start_replacement (h : 1 < e.unitWidth) :
    Decode.start e replacement.toNat = .char replacement := by
  cases e with
  | unknown | latin1 | utf8 | windows1252 => exact absurd h (by decide)
  | utf16le | utf16be | utf32le | utf32be | ucs2le | ucs2be | ucs4le | ucs4be => rfl

end Encoding

/-- Nor does it complete one. -/
theorem Unfinished.feed_replacement (v : Unfinished) : v.feed replacement.toNat = none := by
  cases v <;> rfl

namespace Units

/-- The source goes on delivering the bytes of a text.  A unit is put back only
after one that was read before it. -/
structure Within (u : Units) (bytes : List UInt8) : Prop where
  yields : u.source.Yields (bytes.drop u.source.position) u.source.position
  source_le : u.source.position ≤ bytes.length
  pushed : ∀ unit, u.pushed = some unit → u.encoding.unitWidth < u.source.position ∧
    u.encoding.UnitAt bytes (u.source.position - u.encoding.unitWidth) u.source.position unit

namespace Within

variable {u : Units} {bytes : List UInt8}

theorem ofSource {source : Source} {position : Nat} (e : Encoding)
    (h : source.Yields (bytes.drop position) position) (hle : position ≤ bytes.length) :
    (Units.ofSource source e).Within bytes := by
  obtain rfl := h.position
  exact ⟨h, hle, by simp [Units.ofSource]⟩

theorem runs (h : u.Within bytes) : u.Runs bytes.length := by
  refine ⟨⟨_, _, h.yields, ?_⟩, fun hp => ?_⟩
  · rw [List.length_drop, Nat.add_sub_cancel' h.source_le]
  · obtain ⟨unit, hunit⟩ := Option.isSome_iff_exists.mp hp
    exact Nat.zero_lt_of_lt (h.pushed unit hunit).1

theorem position_le (h : u.Within bytes) : u.position ≤ bytes.length :=
  Nat.le_trans (Nat.sub_le ..) h.source_le

/-- At the end nothing has been put back, and nothing is left. -/
theorem of_position_eq (h : u.Within bytes) (heq : u.position = bytes.length) :
    u.pushed = none ∧ u.left = 0 := by
  have hw := u.encoding.unitWidth_pos
  have hle := h.source_le
  cases hp : u.pushed with
  | some unit =>
    have hlt := (h.pushed unit hp).1
    rw [position, hp, Option.isSome_some, if_pos rfl] at heq
    omega
  | none =>
    rw [position, hp, Option.isSome_none, if_neg Bool.false_ne_true, Nat.sub_zero] at heq
    rw [left, h.yields.rest, heq, List.drop_length, hp]
    exact ⟨rfl, rfl⟩

/-- What becomes of units of which one is asked for. -/
structure Took (u u' : Units) (bytes : List UInt8) : Prop where
  within : u'.Within bytes
  encoding : u'.encoding = u.encoding
  pushed : u'.pushed = none

theorem next (h : u.Within bytes) :
    (∃ u', u.next = .ok none u' ∧ Took u u' bytes ∧ u.position = bytes.length ∧
      u'.position = bytes.length) ∨
    ∃ unit u', u.next = .ok (some unit) u' ∧ Took u u' bytes ∧ u.position < u'.position ∧
      u.encoding.UnitAt bytes u.position u'.position unit := by
  obtain ⟨source, e, pushed⟩ := u
  obtain ⟨hy, hle, hpushed⟩ := h
  have hw := e.unitWidth_pos
  rw [Units.next]
  dsimp only at hy hle hpushed ⊢
  cases pushed with
  | some unit =>
    obtain ⟨hlt, hunit⟩ := hpushed unit rfl
    refine .inr ⟨unit, ⟨source, e, none⟩, rfl, ⟨⟨hy, hle, by simp⟩, rfl, rfl⟩, ?_, hunit⟩
    show source.position - e.unitWidth < source.position
    omega
  | none =>
    obtain ⟨t, ht, hyields⟩ := hy.nextBytes e.unitWidth
    have hlen : (bytes.drop source.position).length = bytes.length - source.position :=
      List.length_drop
    have hposition := hyields.position
    have hstop : t.position ≤ bytes.length := by omega
    have hrest : (bytes.drop source.position).drop e.unitWidth = bytes.drop t.position := by
      rw [List.drop_drop, hposition]
      rcases Nat.le_total e.unitWidth (bytes.drop source.position).length with hle | hle
      · rw [Nat.min_eq_left hle]
      · rw [Nat.min_eq_right hle, List.drop_eq_nil_of_le (by omega),
          List.drop_eq_nil_of_le (by omega)]
    have hwithin : Within ⟨t, e, none⟩ bytes :=
      ⟨by rw [← hrest, hposition]; exact hyields, hstop, by simp⟩
    dsimp only
    rw [ht]
    cases hbytes : (bytes.drop source.position).take e.unitWidth with
    | nil =>
      have hnil : (bytes.drop source.position).length = 0 := by
        rw [(List.take_eq_nil_iff.mp hbytes).resolve_left (Nat.ne_of_gt hw)]
        rfl
      refine .inl ⟨⟨t, e, none⟩, rfl, ⟨hwithin, rfl, rfl⟩, ?_, ?_⟩
      · show source.position - 0 = bytes.length
        omega
      · show t.position - 0 = bytes.length
        omega
    | cons b more =>
      have htake := congrArg List.length hbytes
      rw [List.length_take, List.length_cons] at htake
      refine .inr ⟨_, ⟨t, e, none⟩, rfl, ⟨hwithin, rfl, rfl⟩, ?_, ?_⟩
      · show source.position - 0 < t.position - 0
        omega
      · show e.UnitAt bytes (source.position - 0) (t.position - 0) _
        rw [Nat.sub_zero, Nat.sub_zero, List.length_cons]
        split
        · exact .inr ⟨by omega, rfl, by omega⟩
        · have hgroup : (b :: more).length = e.unitWidth := by
            rw [List.length_cons]
            omega
          have hslice : (Span.mk source.position t.position).slice bytes = b :: more := by
            rw [← hbytes, Span.slice, hposition]
            congr 1
            dsimp only
            omega
          refine .inl ⟨by omega, Encoding.assemble_lt hgroup, ?_⟩
          rw [hslice, Encoding.unitBytes_assemble hgroup]

theorem of_next (h : u.Within bytes) {x : Attempt Units (Option Nat)} (hx : u.next = x) :
    (∃ u', x = .ok none u' ∧ Took u u' bytes ∧ u.position = bytes.length ∧
      u'.position = bytes.length) ∨
    ∃ unit u', x = .ok (some unit) u' ∧ Took u u' bytes ∧ u.position < u'.position ∧
      u.encoding.UnitAt bytes u.position u'.position unit := hx ▸ h.next

/-- The rest of a character that begins at offset `start`. -/
theorem finish (h : u.Within bytes) (hp : u.pushed = none) {start : Nat}
    (hstart : start < u.position)
    (hroom : u.position < bytes.length → start + u.encoding.unitWidth ≤ u.position)
    (v : Unfinished) :
    ∃ c u', u.finish v = .ok c u' ∧ u'.Within bytes ∧ u'.encoding = u.encoding ∧
      start < u'.position ∧
      (c ≠ replacement → ∃ units, Decode.finish v units = (c, []) ∧
        (∀ unit ∈ units, unit < 256 ^ u.encoding.unitWidth) ∧ u.position ≤ u'.position ∧
        (Span.mk u.position u'.position).slice bytes = units.flatMap u.encoding.unitBytes) := by
  fun_induction Units.finish v u with
  | case1 v u e t ht =>
    rcases h.of_next ht with ⟨u', hx, -⟩ | ⟨unit, u', hx, -⟩ <;> exact absurd hx (by simp)
  | case2 v u t ht =>
    rcases h.of_next ht with ⟨u', hx, htook, -, hstop⟩ | ⟨unit, u', hx, -⟩
    · obtain ⟨-, rfl⟩ := EStateM.Result.ok.inj hx
      have hle := h.position_le
      exact ⟨_, _, rfl, htook.within, htook.encoding, by omega, fun hc => absurd rfl hc⟩
    · exact absurd hx (by simp)
  | case3 v u unit t ht hfeed =>
    rcases h.of_next ht with ⟨u', hx, -⟩ | ⟨unit', u', hx, htook, hlt, hunit⟩
    · exact absurd hx (by simp)
    · obtain ⟨hunit', rfl⟩ := EStateM.Result.ok.inj hx
      obtain rfl := Option.some.inj hunit'
      have hle := htook.within.position_le
      have hroom := hroom (by omega)
      have hposition : t.position = t.source.position := by
        rw [Units.position, htook.pushed]
        rfl
      rw [hposition] at hlt hunit hle
      have hback : (t.unread unit).position = t.source.position - u.encoding.unitWidth := by
        rw [← htook.encoding]
        rfl
      refine ⟨_, _, rfl, ⟨htook.within.yields, htook.within.source_le, fun x hx => ?_⟩,
        htook.encoding, by omega, fun hc => absurd rfl hc⟩
      obtain rfl := Option.some.inj hx
      show t.encoding.unitWidth < t.source.position ∧
        t.encoding.UnitAt bytes (t.source.position - t.encoding.unitWidth) t.source.position unit
      rw [htook.encoding]
      refine ⟨by omega, ?_⟩
      rcases hunit with ⟨hstop, hwhole⟩ | hcut
      · rw [hstop, Nat.add_sub_cancel, ← hstop]
        exact .inl ⟨hstop, hwhole⟩
      · exact .inr hcut
  | case4 v u unit t ht c hfeed =>
    rcases h.of_next ht with ⟨u', hx, -⟩ | ⟨unit', u', hx, htook, hlt, hunit⟩
    · exact absurd hx (by simp)
    · obtain ⟨hunit', rfl⟩ := EStateM.Result.ok.inj hx
      obtain rfl := Option.some.inj hunit'
      refine ⟨_, _, rfl, htook.within, htook.encoding, by omega, fun _ => ?_⟩
      rcases hunit with ⟨-, hbound, hslice⟩ | ⟨-, rfl, -⟩
      · refine ⟨[unit], ?_, by simpa using hbound, Nat.le_of_lt hlt, by simpa using hslice⟩
        rw [Decode.finish, hfeed]
      · exact absurd hfeed (by simp [Unfinished.feed_replacement])
  | case5 v u unit t ht v' hfeed ih =>
    rcases h.of_next ht with ⟨u', hx, -⟩ | ⟨unit', u', hx, htook, hlt, hunit⟩
    · exact absurd hx (by simp)
    · obtain ⟨hunit', rfl⟩ := EStateM.Result.ok.inj hx
      obtain rfl := Option.some.inj hunit'
      have hle := htook.within.position_le
      have hroom' := hroom (by omega)
      have he := htook.encoding
      have hroom'' : start + t.encoding.unitWidth ≤ t.position := by
        rw [he]
        omega
      obtain ⟨c, u', hfinish, hwithin, hencoding, hafter, hunits⟩ :=
        ih htook.within htook.pushed (by omega) (fun _ => hroom'')
      refine ⟨c, u', hfinish, hwithin, hencoding.trans he, hafter, fun hc => ?_⟩
      obtain ⟨units, hdecode, hbound, hle', hslice⟩ := hunits hc
      rw [he] at hbound hslice
      rcases hunit with ⟨-, hbound', hslice'⟩ | ⟨-, rfl, -⟩
      · refine ⟨unit :: units, ?_, List.forall_mem_cons.mpr ⟨hbound', hbound⟩, by omega, ?_⟩
        · rw [Decode.finish, hfeed]
          exact hdecode
        · rw [← Span.slice_append (Nat.le_of_lt hlt) hle', hslice, hslice', List.flatMap_cons]
      · exact absurd hfeed (by simp [Unfinished.feed_replacement])

theorem nextChar (h : u.Within bytes) :
    (∃ u', u.nextChar = .ok none u' ∧ u'.Within bytes ∧ u'.encoding = u.encoding ∧
      u.position = bytes.length ∧ u'.position = bytes.length) ∨
    ∃ c u', u.nextChar = .ok (some c) u' ∧ u'.Within bytes ∧ u'.encoding = u.encoding ∧
      u.position < u'.position ∧ u.encoding.CharAt bytes u.position u'.position c := by
  rw [Units.nextChar]
  rcases h.next with ⟨t, hnext, htook, hstop, hstop'⟩ | ⟨unit, t, hnext, htook, hlt, hunit⟩
  · rw [hnext]
    exact .inl ⟨t, rfl, htook.within, htook.encoding, hstop, hstop'⟩
  · right
    rw [hnext]
    dsimp only
    -- The units of a character are those that it is encoded as.
    have hchar : ∀ {c : Char} {units : List Nat} {stop : Nat}, c ≠ replacement →
        Decode.first u.encoding units = some (c, []) →
        (∀ unit ∈ units, unit < 256 ^ u.encoding.unitWidth) →
        (Span.mk u.position stop).slice bytes = units.flatMap u.encoding.unitBytes →
        u.encoding.represents c ∧
          (Span.mk u.position stop).slice bytes = u.encoding.charBytes c := by
      intro c units stop hc hfirst hbound hslice
      obtain ⟨hrepresents, hunits⟩ := Decode.eq_charUnits_of_first hbound hfirst hc
      rw [List.append_nil] at hunits
      rw [hslice, Encoding.charBytes_eq, hunits]
      exact ⟨hrepresents, rfl⟩
    cases hs : Decode.start t.encoding unit with
    | char c =>
      refine ⟨c, t, rfl, htook.within, htook.encoding, hlt, fun hc => ?_⟩
      rw [htook.encoding] at hs
      rcases hunit with ⟨-, hbound, hslice⟩ | ⟨-, rfl, hwide⟩
      · refine hchar hc ?_ (List.forall_mem_singleton.mpr hbound) (by simpa using hslice)
        rw [Decode.first, hs]
      · rw [Encoding.start_replacement hwide] at hs
        exact absurd (Decoded.char.inj hs).symm hc
    | more v =>
      rw [htook.encoding] at hs
      rcases hunit with ⟨hstop, hbound, hslice⟩ | ⟨-, rfl, hwide⟩
      · have hroom : u.position + t.encoding.unitWidth ≤ t.position := by
          rw [htook.encoding, hstop]
        obtain ⟨c, u', hfinish, hwithin, hencoding, hafter, hunits⟩ :=
          htook.within.finish htook.pushed hlt (fun _ => hroom) v
        dsimp only
        rw [hfinish]
        refine ⟨c, u', rfl, hwithin, hencoding.trans htook.encoding, hafter, fun hc => ?_⟩
        obtain ⟨units, hdecode, hbound', hle, hslice'⟩ := hunits hc
        rw [htook.encoding] at hbound' hslice'
        have hfirst : Decode.first u.encoding (unit :: units) = some (c, []) := by
          rw [Decode.first, hs]
          exact congrArg some hdecode
        refine hchar hc hfirst (List.forall_mem_cons.mpr ⟨hbound, hbound'⟩) ?_
        rw [← Span.slice_append (Nat.le_of_lt hlt) hle, hslice, hslice', List.flatMap_cons]
      · rw [Encoding.start_replacement hwide] at hs
        exact absurd hs (by simp)

theorem nextRaw (h : u.Within bytes) :
    (∃ u', u.nextRaw = .ok none u' ∧ u'.Within bytes ∧ u'.encoding = u.encoding ∧
      u.position = bytes.length ∧ u'.position = bytes.length) ∨
    ∃ c u', u.nextRaw = .ok (some c) u' ∧ u'.Within bytes ∧ u'.encoding = u.encoding ∧
      u.position < u'.position := by
  rw [Units.nextRaw]
  rcases h.next with ⟨t, hnext, htook, hstop, hstop'⟩ | ⟨unit, t, hnext, htook, hlt, -⟩
  · rw [hnext]
    exact .inl ⟨t, rfl, htook.within, htook.encoding, hstop, hstop'⟩
  · rw [hnext]
    exact .inr ⟨_, t, rfl, htook.within, htook.encoding, hlt⟩

/-- A character takes the bytes that it is encoded as, unless it is U+FFFD, and
takes some in any case. -/
theorem scan (h : u.Within bytes) (s : Strategy) :
    (∃ u', u.scan s = .ok none u' ∧ u'.Within bytes ∧ u'.encoding = u.encoding ∧
      u.position = bytes.length ∧ u'.position = bytes.length) ∨
    ∃ c u', u.scan s = .ok (some c) u' ∧ u'.Within bytes ∧ u'.encoding = u.encoding ∧
      c.span = ⟨u.position, u'.position⟩ ∧ u.position < u'.position ∧
      (s ≠ .raw → u.encoding.CharAt bytes u.position u'.position c.char) := by
  rw [Units.scan]
  by_cases hs : s = .raw
  · subst hs
    rw [show u.readChar .raw = u.nextRaw from rfl]
    rcases h.nextRaw with ⟨u', hread, hu', he, hstop, hstop'⟩ | ⟨c, u', hread, hu', he, hlt⟩
    · rw [hread]
      exact .inl ⟨u', rfl, hu', he, hstop, hstop'⟩
    · rw [hread]
      exact .inr ⟨_, u', rfl, hu', he, rfl, hlt, fun hraw => absurd rfl hraw⟩
  · have hread : u.readChar s = u.nextChar := by
      cases s with
      | raw => exact absurd rfl hs
      | decode | view | discard => rfl
    rw [hread]
    rcases h.nextChar with ⟨u', hread, hu', he, hstop, hstop'⟩ | ⟨c, u', hread, hu', he, hlt, hchar⟩
    · rw [hread]
      exact .inl ⟨u', rfl, hu', he, hstop, hstop'⟩
    · rw [hread]
      exact .inr ⟨_, u', rfl, hu', he, rfl, hlt, fun _ => hchar⟩

end Within

end Units

namespace Chars

/-- The source goes on delivering the bytes of a text.  A character that has
been read ahead comes before what is still to be read. -/
structure Within (cs : Chars) (bytes : List UInt8) : Prop where
  units : cs.units.Within bytes
  ahead : ∀ c, cs.ahead = some c → c.span.start < cs.units.position

namespace Within

variable {cs : Chars} {bytes : List UInt8}

theorem position_le (h : cs.Within bytes) : cs.position ≤ bytes.length := by
  have hle := h.units.position_le
  rw [position]
  split
  · rename_i c hc
    have := h.ahead c hc
    omega
  · exact hle

/-- The characters still to come, as a strategy reads them. -/
theorem exists_gives (h : cs.Within bytes) (s : Strategy) :
    ∃ chars, cs.Gives s bytes.length chars := by
  obtain ⟨more, hmore⟩ := h.units.runs.exists_gives s
  refine ⟨cs.ahead.toList ++ more, ⟨more, hmore, rfl⟩, ?_⟩
  rw [List.forall_mem_append]
  refine ⟨fun c hc => ?_, hmore.start_lt⟩
  have hlt := h.ahead c (Option.mem_toList.mp hc)
  have hle := h.units.position_le
  omega

theorem take (h : cs.Within bytes) (s : Strategy) :
    (∃ u, cs.take s = .ok none ⟨u, none⟩ ∧ u.Within bytes ∧ u.position = cs.position ∧
      cs.left = 0) ∨
    ∃ c u, cs.take s = .ok (some c) ⟨u, none⟩ ∧ u.Within bytes ∧ cs.position < u.position := by
  obtain ⟨units, ahead⟩ := cs
  rw [Chars.take]
  cases ahead with
  | some c => exact .inr ⟨c, units, rfl, h.units, h.ahead c rfl⟩
  | none =>
    dsimp only
    rcases h.units.scan s with ⟨u, hscan, hu, -, hstop, hstop'⟩ | ⟨c, u, hscan, hu, -, -, hlt, -⟩
    · rw [hscan]
      exact .inl ⟨u, rfl, hu, hstop'.trans hstop.symm, (h.units.of_position_eq hstop).2⟩
    · rw [hscan]
      exact .inr ⟨c, u, rfl, hu, hlt⟩

/-- Where the reader is only ever grows, and it grows with every character. -/
theorem next (h : cs.Within bytes) (s : Strategy) (folds : Bool) :
    (∃ cs', cs.next s folds = .ok none cs' ∧ cs'.Within bytes ∧ cs'.position = cs.position ∧
      cs.left = 0) ∨
    ∃ c cs', cs.next s folds = .ok (some c) cs' ∧ cs'.Within bytes ∧
      cs.position < cs'.position := by
  rw [Chars.next]
  rcases h.take s with ⟨u, htake, hu, hsame, hleft⟩ | ⟨c, u, htake, hu, hlt⟩
  · rw [htake]
    exact .inl ⟨_, rfl, ⟨hu, by simp⟩, hsame, hleft⟩
  · right
    rw [htake]
    dsimp only
    split
    · rcases hu.scan s with ⟨u', hscan, hu', -, hstop, hstop'⟩ |
        ⟨d, u', hscan, hu', -, hspan, hlt', -⟩
      · rw [hscan]
        refine ⟨c, _, rfl, ⟨hu', by simp⟩, ?_⟩
        show cs.position < u'.position
        omega
      · rw [hscan]
        dsimp only
        split
        · exact ⟨_, _, rfl, ⟨hu', by simp⟩, Nat.lt_trans hlt hlt'⟩
        · -- The character stays ahead, and begins where the one before it ends.
          have hstart : d.span.start = u.position := congrArg Span.start hspan
          refine ⟨c, _, rfl, ⟨hu', fun x hx => ?_⟩, ?_⟩
          · obtain rfl := Option.some.inj hx
            exact hstart ▸ hlt'
          · show cs.position < d.span.start
            rwa [hstart]
    · exact ⟨c, _, rfl, ⟨hu, by simp⟩, hlt⟩

end Within

theorem keeps_bytes (bytes : List UInt8) : Keeps (·.Within bytes) := by
  intro cs h s folds
  rcases h.next s folds with ⟨cs', hnext, hcs', -⟩ | ⟨c, cs', hnext, hcs', -⟩
  · rwa [hnext]
  · rwa [hnext]

/-- Where a reader is does not fall below where it was, and grows when fewer
characters are left. -/
theorem keeps_within (bytes : List UInt8) (position left : Nat) :
    Keeps fun cs => cs.Within bytes ∧ position ≤ cs.position ∧
      (cs.position = position → left ≤ cs.left) := by
  rintro cs ⟨h, hle, hleft⟩ s folds
  rcases h.next s folds with ⟨cs', hnext, hcs', hsame, hzero⟩ | ⟨c, cs', hnext, hcs', hlt⟩
  · rw [hnext]
    refine ⟨hcs', hsame ▸ hle, fun heq => ?_⟩
    have := hleft (hsame ▸ heq)
    omega
  · rw [hnext]
    exact ⟨hcs', by omega, fun heq => by omega⟩

end Chars

end Tabular
