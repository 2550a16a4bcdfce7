/-
Decoding what could be looked at unit by unit.

* `Encoding.Shows` — what the units of a character look like: the character, if
  it is plain, and otherwise characters none of which is;
* `Units.Looks`, `Units.Trails` — what the units still to come look like, to a
  reader that has decoded those before them;
* `Units.Trails.scan` — it decodes the first of them into one character;
* `Encoding.Takes` — the same of a logical character;
* `Encoding.Recasts` — characters of which the first has been decoded;
* `Chars.Trails.next` — after a plain one, units can be looked at again, though
  one character may have been decoded by then.

Design notes: a unit that breaks off a character is put back, and if the end of
the input cuts it short, the offset that is then reported is not its own.  What
it looks like does not depend on that, so `Looks` leaves its span open.
-/
import Tabular.Proofs.Read.Plain
import Tabular.Proofs.Read.Within

namespace Tabular

/-- What the units that are decoded as `c` look like. -/
inductive Encoding.Shows (e : Encoding) (c : Char) : List Scanned → Prop
  | plain {x : Scanned} (h : e.isPlain c) (hx : x.char = c) : Shows e c [x]
  | block {x : Scanned} {xs : List Scanned} (h : ¬ e.isPlain c)
      (hxs : ∀ y ∈ x :: xs, ¬ e.isPlain y.char) : Shows e c (x :: xs)

/-- The same characters, of which the first may lie elsewhere. -/
inductive Shifted : List Scanned → List Scanned → Prop
  | nil : Shifted [] []
  | cons {x y : Scanned} {cs : List Scanned} (h : y.char = x.char) : Shifted (x :: cs) (y :: cs)

theorem Shifted.refl : ∀ cs : List Scanned, Shifted cs cs
  | [] => .nil
  | _ :: _ => .cons rfl

/-- What is given in place of characters, the first of which looked like no
plain one and has been decoded. -/
inductive Encoding.Recasts (e : Encoding) (stop : Nat) : List Scanned → List Scanned → Prop
  | mk {c x : Scanned} {block cs ys : List Scanned} (hc : ¬ e.isPlain c.char)
      (hxs : ∀ y ∈ x :: block, ¬ e.isPlain y.char) (hx : x.span.start < stop)
      (h : Shifted cs ys) : Recasts e stop (x :: block ++ cs) (c :: ys)

/-! ### Units -/

namespace Units

variable {u u' : Units} {stop : Nat} {unit : Nat} {xs : List Scanned} {bytes : List UInt8}

/-- What the units still to come look like.  A unit that was put back is the
first of them, wherever it is reported to begin. -/
def Looks (u : Units) (stop : Nat) (xs : List Scanned) : Prop :=
  u.Gives .raw stop xs ∨ ∃ unit x more, u.pushed = some unit ∧ xs = x :: more ∧
    x.char = rawChar unit ∧ Gives .raw stop { u with pushed := none } more

/-- Units of a text, of which some have been decoded. -/
structure Trails (u : Units) (bytes : List UInt8) (xs : List Scanned) : Prop where
  within : u.Within bytes
  looks : u.Looks bytes.length xs

theorem Gives.of_next_none (h : u.Gives .raw stop xs) (hn : u.next = .ok none u') :
    xs = [] ∧ u'.Gives .raw stop [] := by
  have hscan : u.scan .raw = .ok none u' := by
    rw [scan, show u.readChar .raw = u.nextRaw from rfl, nextRaw, hn]
  cases h with
  | nil hy hp =>
    obtain ⟨u'', hscan', hg, -⟩ := (Gives.nil (s := .raw) hy hp).scan_nil
    rw [hscan] at hscan'
    obtain ⟨-, rfl⟩ := EStateM.Result.ok.inj hscan'
    exact ⟨rfl, hg⟩
  | cons hc he hlt h =>
    rw [hscan] at hc
    simp at hc

theorem Gives.of_next_some (h : u.Gives .raw stop xs) (hn : u.next = .ok (some unit) u') :
    ∃ more, xs = ⟨rawChar unit, ⟨u.position, u'.position⟩⟩ :: more ∧ u'.Gives .raw stop more := by
  have hscan : u.scan .raw = .ok (some ⟨rawChar unit, ⟨u.position, u'.position⟩⟩) u' := by
    rw [scan, show u.readChar .raw = u.nextRaw from rfl, nextRaw, hn]
  cases h with
  | nil hy hp =>
    obtain ⟨u'', hscan', -, -⟩ := (Gives.nil (s := .raw) hy hp).scan_nil
    rw [hscan] at hscan'
    simp at hscan'
  | cons hc he hlt h =>
    rw [hscan] at hc
    obtain ⟨heq, rfl⟩ := EStateM.Result.ok.inj hc
    obtain rfl := Option.some.inj heq
    exact ⟨_, rfl, h⟩

namespace Looks

theorem of_next_none (h : u.Looks stop xs) (hn : u.next = .ok none u') :
    xs = [] ∧ u'.Gives .raw stop [] := by
  rcases h with h | ⟨unit, x, more, hp, -⟩
  · exact h.of_next_none hn
  · rw [Units.next, hp] at hn
    simp at hn

theorem of_next_some (h : u.Looks stop xs) (hn : u.next = .ok (some unit) u') :
    ∃ x more, xs = x :: more ∧ x.char = rawChar unit ∧ u'.Gives .raw stop more ∧
      (u.Gives .raw stop xs → x = ⟨rawChar unit, ⟨u.position, u'.position⟩⟩) := by
  have hgives : ∀ {ys}, u.Gives .raw stop ys → ∃ x more, ys = x :: more ∧
      x.char = rawChar unit ∧ u'.Gives .raw stop more ∧
        x = ⟨rawChar unit, ⟨u.position, u'.position⟩⟩ := by
    intro ys h
    obtain ⟨more, rfl, h'⟩ := h.of_next_some hn
    exact ⟨_, more, rfl, rfl, h', rfl⟩
  rcases h with h | ⟨unit', x, more, hp, rfl, hx, h⟩
  · obtain ⟨x, more, hxs, hx, h', heq⟩ := hgives h
    exact ⟨x, more, hxs, hx, h', fun _ => heq⟩
  · have hn' := hn
    rw [Units.next, hp] at hn'
    obtain ⟨hunit, rfl⟩ := EStateM.Result.ok.inj hn'
    obtain rfl := Option.some.inj hunit
    refine ⟨x, more, rfl, hx, h, fun hexact => ?_⟩
    obtain ⟨y, ys, hys, -, -, heq⟩ := hgives hexact
    exact (List.cons.inj hys).1.trans heq

theorem gives_nil (h : u.Looks stop []) : u.Gives .raw stop [] := by
  rcases h with h | ⟨unit, x, more, -, hnil, -⟩
  · exact h
  · exact absurd hnil (by simp)

end Looks

/-- The units are given as they look, but for where the first of them lies. -/
theorem Looks.exists_gives (h : u.Looks bytes.length xs) (hw : u.Within bytes) :
    ∃ ys, u.Gives .raw bytes.length ys ∧ Shifted xs ys := by
  rcases h with h | ⟨unit, x, more, hp, rfl, hx, h⟩
  · exact ⟨xs, h, .refl xs⟩
  · obtain ⟨zs, hzs⟩ := hw.runs.exists_gives .raw
    have hnext : u.next = .ok (some unit) { u with pushed := none } := by rw [Units.next, hp]
    obtain ⟨rest, rfl, -⟩ := hzs.of_next_some hnext
    have hlt := hzs.start_lt _ (List.mem_cons_self ..)
    have hscan : u.scan .raw = .ok
        (some ⟨rawChar unit, ⟨u.position, Units.position { u with pushed := none }⟩⟩)
        { u with pushed := none } := by
      rw [scan, show u.readChar .raw = u.nextRaw from rfl, nextRaw, hnext]
    exact ⟨_, .cons hscan rfl hlt h, .cons hx.symm⟩

/-- What is known of a unit that has been read. -/
theorem Within.of_next_some (h : u.Within bytes) (hn : u.next = .ok (some unit) u') :
    u'.Within bytes ∧ u'.encoding = u.encoding ∧ unit < 256 ^ u.encoding.unitWidth := by
  rcases h.of_next hn with ⟨t, hx, -⟩ | ⟨unit', t, hx, htook, -, hunit⟩
  · exact absurd hx (by simp)
  · obtain ⟨hunit', rfl⟩ := EStateM.Result.ok.inj hx
    obtain rfl := Option.some.inj hunit'
    refine ⟨htook.within, htook.encoding, ?_⟩
    rcases hunit with ⟨-, hlt, -⟩ | ⟨-, rfl, hwide⟩
    · exact hlt
    · -- A unit that is cut short has more bytes than one.
      exact Nat.lt_of_lt_of_le (by decide) (Nat.pow_le_pow_right (n := 256) (by decide) hwide)

theorem Within.of_scan {s : Strategy} {c : Scanned} (h : u.Within bytes)
    (hs : u.scan s = .ok (some c) u') : u'.Within bytes ∧ u'.encoding = u.encoding := by
  rcases h.scan s with ⟨t, hscan, -⟩ | ⟨d, t, hscan, ht, he, -⟩
  · rw [hs] at hscan
    simp at hscan
  · rw [hs] at hscan
    obtain ⟨-, rfl⟩ := EStateM.Result.ok.inj hscan
    exact ⟨ht, he⟩

/-- The rest of a character that has begun does not look plain, and neither is
what becomes of it. -/
theorem Within.finish_looks {v : Unfinished} (hw : u.Within bytes)
    (hv : Decode.ArisesIn u.encoding v) (h : u.Gives .raw bytes.length xs) :
    ∃ c u' block more, u.finish v = .ok c u' ∧ xs = block ++ more ∧
      ¬ u.encoding.isPlain c ∧ (∀ y ∈ block, ¬ u.encoding.isPlain y.char) ∧
      u'.Looks bytes.length more := by
  fun_induction Units.finish v u generalizing xs with
  | case1 v u e t ht =>
    rcases hw.of_next ht with ⟨u', hx, -⟩ | ⟨unit, u', hx, -⟩ <;> exact absurd hx (by simp)
  | case2 v u t ht =>
    obtain ⟨rfl, hg⟩ := h.of_next_none ht
    exact ⟨_, _, [], [], rfl, rfl, Encoding.not_isPlain_replacement hv, by simp, .inl hg⟩
  | case3 v u unit t ht hfeed =>
    obtain ⟨more, rfl, hg⟩ := h.of_next_some ht
    -- The unit is still to come.
    have hpushed : t.pushed = none := (next_some ht).2
    refine ⟨_, _, [], _, rfl, rfl, Encoding.not_isPlain_replacement hv, by simp,
      .inr ⟨unit, _, more, rfl, rfl, rfl, ?_⟩⟩
    rw [unread, ← hpushed]
    exact hg
  | case4 v u unit t ht c hfeed =>
    obtain ⟨more, rfl, hg⟩ := h.of_next_some ht
    obtain ⟨-, -, hlt⟩ := hw.of_next_some ht
    exact ⟨_, _, [_], more, rfl, rfl, Encoding.not_isPlain_of_complete hv hfeed,
      List.forall_mem_singleton.mpr (Encoding.not_isPlain_of_feed hv hlt hfeed), .inl hg⟩
  | case5 v u unit t ht v' hfeed ih =>
    obtain ⟨more, rfl, hg⟩ := h.of_next_some ht
    obtain ⟨hwithin, he, hlt⟩ := hw.of_next_some ht
    rw [he] at ih
    obtain ⟨c, u', block, rest, hfinish, rfl, hc, hblock, hlooks⟩ :=
      ih hwithin (.feed hv hfeed) hg
    exact ⟨c, u', _ :: block, rest, hfinish, rfl, hc, List.forall_mem_cons.mpr
      ⟨Encoding.not_isPlain_of_feed hv hlt hfeed, hblock⟩, hlooks⟩

/-- A reader that decodes takes one character of what the units look like.  A
plain one is decoded just as it looks. -/
theorem Trails.scan (h : u.Trails bytes xs) :
    (xs = [] ∧ ∃ u', u.scan .discard = .ok none u' ∧ u'.Trails bytes [] ∧
      u'.encoding = u.encoding) ∨
    ∃ c u' block more, u.scan .discard = .ok (some c) u' ∧ u'.Trails bytes more ∧
      u'.encoding = u.encoding ∧ xs = block ++ more ∧ u.encoding.Shows c.char block ∧
      (u.encoding.isPlain c.char → u'.Gives .raw bytes.length more ∧
        (u.Gives .raw bytes.length xs → block = [c])) := by
  have hread : u.readChar .discard = u.nextChar := rfl
  rcases h.within.next with ⟨t, hnext, htook, -⟩ | ⟨unit, t, hnext, htook, -⟩
  · left
    obtain ⟨rfl, hg⟩ := h.looks.of_next_none hnext
    refine ⟨rfl, t, ?_, ⟨htook.within, .inl hg⟩, htook.encoding⟩
    rw [Units.scan, hread, Units.nextChar, hnext]
  · right
    obtain ⟨-, he, hlt⟩ := h.within.of_next_some hnext
    obtain ⟨x, more, rfl, hx, hg, hexact⟩ := h.looks.of_next_some hnext
    cases hs : Decode.start u.encoding unit with
    | char c =>
      have hscan : u.scan .discard = .ok (some ⟨c, ⟨u.position, t.position⟩⟩) t := by
        rw [Units.scan, hread, Units.nextChar, hnext]
        dsimp only
        rw [he, hs]
      by_cases hc : u.encoding.isPlain c
      · have hunit : rawChar unit = c := Encoding.rawChar_of_start hlt hc hs
        refine ⟨_, t, [x], more, hscan, ⟨htook.within, .inl hg⟩, he, rfl,
          .plain hc (hx.trans hunit), fun _ => ⟨hg, fun hu => ?_⟩⟩
        rw [hexact hu, hunit]
      · -- Were it to look plain, it would be decoded as it looks.
        have hunit : ¬ u.encoding.isPlain x.char := by
          intro hplain
          rw [hx] at hplain
          rw [Encoding.start_rawChar hlt hplain] at hs
          exact hc (Decoded.char.inj hs ▸ hplain)
        exact ⟨_, t, [x], more, hscan, ⟨htook.within, .inl hg⟩, he, rfl,
          .block hc (List.forall_mem_singleton.mpr hunit), fun hplain => absurd hplain hc⟩
    | more v =>
      obtain ⟨c, u', block, rest, hfinish, rfl, hc, hblock, hlooks⟩ :=
        htook.within.finish_looks (he.symm ▸ Decode.ArisesIn.start hs) hg
      rw [he] at hc hblock
      have hscan : u.scan .discard = .ok (some ⟨c, ⟨u.position, u'.position⟩⟩) u' := by
        rw [Units.scan, hread, Units.nextChar, hnext]
        dsimp only
        rw [he, hs]
        dsimp only
        rw [hfinish]
      have hunit : ¬ u.encoding.isPlain x.char := hx ▸ Encoding.not_isPlain_of_more hlt hs
      obtain ⟨hwithin, he'⟩ := h.within.of_scan hscan
      exact ⟨_, u', x :: block, rest, hscan, ⟨hwithin, hlooks⟩, he', rfl,
        .block hc (List.forall_mem_cons.mpr ⟨hunit, hblock⟩), fun hplain => absurd hplain hc⟩

end Units

/-! ### Logical characters -/

/-- A character that is not the CR of a CR LF stands for itself. -/
theorem uncons_of_not_crlf {folds : Bool} {x : Scanned} {xs : List Scanned}
    (h : folds → x.char = '\r' → ∀ y ∈ xs.head?, y.char ≠ '\n') :
    uncons folds (x :: xs) = some (x, xs) := by
  cases xs with
  | nil => rfl
  | cons y ys =>
    rw [uncons, if_neg]
    rintro ⟨hx, hfolds, hy⟩
    exact h hfolds hx y rfl hy

namespace Encoding

variable {e : Encoding} {folds : Bool} {c d : Char} {block xs : List Scanned}

/-- The next logical character of what looks like `xs` is decoded as `c`, and
`rest` is left. -/
def Takes (e : Encoding) (folds : Bool) (xs : List Scanned) (c : Char) (rest : List Scanned) :
    Prop :=
  ∃ x block, uncons folds xs = some (x, block ++ rest) ∧ e.Shows c (x :: block)

theorem isPlain_cr (e : Encoding) : e.isPlain '\r' := e.isPlain_ascii (by decide) (by decide)

theorem isPlain_lf (e : Encoding) : e.isPlain '\n' := e.isPlain_ascii (by decide) (by decide)

theorem uncons_of_not_plain {x : Scanned} (h : ¬ e.isPlain x.char) :
    uncons folds (x :: xs) = some (x, xs) :=
  uncons_of_not_crlf fun _ hx => absurd (hx ▸ e.isPlain_cr) h

namespace Shows

theorem of_char (e : Encoding) (x : Scanned) : e.Shows x.char [x] := by
  by_cases h : e.isPlain x.char
  · exact .plain h rfl
  · exact .block h (List.forall_mem_singleton.mpr h)

/-- What is not decoded as a plain character does not begin with one. -/
theorem ne_of_mem_head? (h : e.Shows d block) (hc : e.isPlain c) (hne : d ≠ c) :
    ∀ y ∈ (block ++ xs).head?, y.char ≠ c := by
  intro y hy
  cases h with
  | plain hd hx =>
    obtain rfl := Option.some.inj hy
    exact hx.trans_ne hne
  | block hd hxs =>
    obtain rfl := Option.some.inj hy
    rintro rfl
    exact hxs _ (List.mem_cons_self ..) hc

/-- What is decoded as a plain character is that character. -/
theorem eq_singleton (h : e.Shows c block) (hc : e.isPlain c) :
    ∃ x, block = [x] ∧ x.char = c := by
  cases h with
  | plain hd hx => exact ⟨_, rfl, hx⟩
  | block hd hxs => exact absurd hc hd

theorem takes (h : e.Shows c block)
    (hcrlf : folds → c = '\r' → ∀ y ∈ xs.head?, y.char ≠ '\n') :
    e.Takes folds (block ++ xs) c xs := by
  cases h with
  | plain hc hx => exact ⟨_, [], uncons_of_not_crlf (hx ▸ hcrlf), .plain hc hx⟩
  | block hc hxs => exact ⟨_, _, uncons_of_not_plain (hxs _ (List.mem_cons_self ..)), .block hc hxs⟩

end Shows

/-- A plain character is taken for itself. -/
theorem Takes.of_isPlain {rest : List Scanned} (h : e.Takes folds xs c rest) (hc : e.isPlain c) :
    ∃ x, uncons folds xs = some (x, rest) ∧ x.char = c := by
  obtain ⟨x, block, huncons, hshows⟩ := h
  obtain ⟨y, hy, hchar⟩ := hshows.eq_singleton hc
  obtain ⟨rfl, rfl⟩ := List.cons.inj hy
  exact ⟨x, huncons, hchar⟩

end Encoding

namespace Chars

variable {cs : Chars} {stop : Nat} {folds : Bool} {xs : List Scanned} {bytes : List UInt8}

/-- What the characters still to come look like. -/
def Looks (cs : Chars) (stop : Nat) (xs : List Scanned) : Prop :=
  match cs.ahead with
  | none => cs.units.Looks stop xs
  | some d => ∃ block more, xs = block ++ more ∧ cs.units.encoding.Shows d.char block ∧
      cs.units.Looks stop more ∧
      (cs.units.encoding.isPlain d.char → cs.units.Gives .raw stop more ∧ block = [d])

/-- Characters of a text, of which some have been decoded. -/
structure Trails (cs : Chars) (bytes : List UInt8) (xs : List Scanned) : Prop where
  within : cs.Within bytes
  looks : cs.Looks bytes.length xs

/-- After `c` the characters can be looked at again, unless `c` is a carriage
return and the character after it, which has been decoded by now, is not
plain. -/
def Resumes (cs : Chars) (stop : Nat) (folds : Bool) (c : Char) (xs : List Scanned) : Prop :=
  cs.Gives .raw stop xs ∨
    folds ∧ c = '\r' ∧ ∃ ys, cs.Gives .raw stop ys ∧ cs.units.encoding.Recasts stop xs ys

theorem Within.gives {s : Strategy} (h : cs.Within bytes)
    (hxs : cs.units.Gives s bytes.length xs) :
    cs.Gives s bytes.length (cs.ahead.toList ++ xs) := by
  refine ⟨⟨xs, hxs, rfl⟩, List.forall_mem_append.mpr ⟨fun c hc => ?_, hxs.start_lt⟩⟩
  have hlt := h.ahead c (Option.mem_toList.mp hc)
  have hle := h.units.position_le
  omega

theorem Within.of_next {s : Strategy} {cs' : Chars} {c : Option Scanned} (h : cs.Within bytes)
    (hn : cs.next s folds = .ok c cs') : cs'.Within bytes := by
  rcases h.next s folds with ⟨t, hnext, ht, -⟩ | ⟨d, t, hnext, ht, -⟩
  all_goals
    rw [hn] at hnext
    obtain ⟨-, rfl⟩ := EStateM.Result.ok.inj hnext
    exact ht

/-- Characters that have been looked at so far. -/
theorem Gives.trails (h : cs.Gives .raw bytes.length xs) (hw : cs.Within bytes) :
    cs.Trails bytes xs := by
  refine ⟨hw, ?_⟩
  obtain ⟨more, hmore, rfl⟩ := h.units
  rw [Looks]
  cases cs.ahead with
  | none => exact .inl hmore
  | some d => exact ⟨[d], more, rfl, .of_char _ d, .inl hmore, fun _ => ⟨hmore, rfl⟩⟩

namespace Trails

theorem gives_nil (h : cs.Trails bytes []) : cs.Gives .raw bytes.length [] := by
  obtain ⟨hw, hlooks⟩ := h
  rw [Looks] at hlooks
  cases ha : cs.ahead with
  | none =>
    rw [ha] at hlooks
    have hg := hw.gives hlooks.gives_nil
    rwa [ha] at hg
  | some d =>
    rw [ha] at hlooks
    obtain ⟨block, more, hnil, hshows, -⟩ := hlooks
    obtain ⟨rfl, -⟩ := List.append_eq_nil_iff.mp hnil.symm
    exact nomatch hshows

theorem take (h : cs.Trails bytes xs) :
    (xs = [] ∧ ∃ u, cs.take .discard = .ok none ⟨u, none⟩ ∧ u.Trails bytes [] ∧
      u.encoding = cs.units.encoding) ∨
    ∃ c u block more, cs.take .discard = .ok (some c) ⟨u, none⟩ ∧ u.Trails bytes more ∧
      u.encoding = cs.units.encoding ∧ xs = block ++ more ∧
      cs.units.encoding.Shows c.char block ∧
      (cs.units.encoding.isPlain c.char → u.Gives .raw bytes.length more) := by
  obtain ⟨units, ahead⟩ := cs
  obtain ⟨hw, hlooks⟩ := h
  cases ahead with
  | some d =>
    obtain ⟨block, more, rfl, hshows, hmore, hplain⟩ := hlooks
    exact .inr ⟨d, units, block, more, rfl, ⟨hw.units, hmore⟩, rfl, rfl, hshows,
      fun hd => (hplain hd).1⟩
  | none =>
    have hu : units.Trails bytes xs := ⟨hw.units, hlooks⟩
    rcases hu.scan with ⟨rfl, u, hscan, hmore, he⟩ |
      ⟨c, u, block, more, hscan, hmore, he, rfl, hshows, hplain⟩
    · exact .inl ⟨rfl, u, by rw [Chars.take, hscan], hmore, he⟩
    · exact .inr ⟨c, u, block, more, by rw [Chars.take, hscan], hmore, he, rfl, hshows,
        fun hc => (hplain hc).1⟩

/-- Behind a carriage return that CR LF may begin, the character that comes next
is decoded as well. -/
theorem next_return {c x : Scanned} {u : Units} {more : List Scanned} (hw : cs.Within bytes)
    (htake : cs.take .discard = .ok (some c) ⟨u, none⟩) (he : u.encoding = cs.units.encoding)
    (hu : u.Trails bytes more) (hg : u.Gives .raw bytes.length more)
    (hfold : c.char = '\r' ∧ folds) (hx : x.char = '\r') :
    ∃ d cs' rest, cs.next .discard folds = .ok (some d) cs' ∧ cs'.Trails bytes rest ∧
      cs'.units.encoding = cs.units.encoding ∧
      cs.units.encoding.Takes folds (x :: more) d.char rest ∧
      cs'.Resumes bytes.length folds d.char rest := by
  have hshows : cs.units.encoding.Shows c.char [x] :=
    .plain (hfold.1 ▸ Encoding.isPlain_cr _) (hx.trans hfold.1.symm)
  rcases hu.scan with ⟨rfl, u', hscan, hu', he'⟩ |
    ⟨d, u', block, rest, hscan, hu', he', rfl, hshows', hplain⟩
  · have hnext : cs.next .discard folds = .ok (some c) ⟨u', none⟩ := by
      rw [Chars.next, htake]
      dsimp only
      rw [if_pos hfold, hscan]
    have hw' := hw.of_next hnext
    have hempty := hu'.looks.gives_nil
    exact ⟨c, _, [], hnext, ⟨hw', .inl hempty⟩, he'.trans he, hshows.takes (by simp),
      .inl (hw'.gives hempty)⟩
  by_cases hd : d.char = '\n'
  · have hnext : cs.next .discard folds =
        .ok (some ⟨'\n', c.span.start, d.span.stop⟩) ⟨u', none⟩ := by
      rw [Chars.next, htake]
      dsimp only
      rw [if_pos hfold, hscan]
      exact if_pos hd
    have hw' := hw.of_next hnext
    obtain ⟨hrest, hblock⟩ := hplain (hd ▸ Encoding.isPlain_lf _)
    obtain rfl := hblock hg
    have huncons : uncons folds (x :: ([d] ++ rest)) =
        some (⟨'\n', x.span.start, d.span.stop⟩, rest) := if_pos ⟨hx, hfold.2, hd⟩
    exact ⟨_, _, rest, hnext, ⟨hw', hu'.looks⟩, he'.trans he,
      ⟨_, [], huncons, .plain (Encoding.isPlain_lf _) rfl⟩, .inl (hw'.gives hrest)⟩
  · have hnext : cs.next .discard folds = .ok (some c) ⟨u', some d⟩ := by
      rw [Chars.next, htake]
      dsimp only
      rw [if_pos hfold, hscan]
      exact if_neg hd
    have hw' := hw.of_next hnext
    rw [← he'] at hshows' hplain
    have hlooks : Looks ⟨u', some d⟩ bytes.length (block ++ rest) :=
      ⟨block, rest, rfl, hshows', hu'.looks, fun hp => ⟨(hplain hp).1, (hplain hp).2 hg⟩⟩
    refine ⟨c, _, block ++ rest, hnext, ⟨hw', hlooks⟩, he'.trans he, hshows.takes fun _ _ =>
      hshows'.ne_of_mem_head? (Encoding.isPlain_lf _) hd, ?_⟩
    -- The character waits its turn, and is as it looks if it is plain.
    cases hshows' with
    | plain hp hy =>
      obtain ⟨hrest, hblock⟩ := hplain hp
      rw [hblock hg]
      exact .inl (hw'.gives hrest)
    | block hp hys =>
      obtain ⟨ys, hys', hshifted⟩ := hu'.looks.exists_gives hu'.within
      exact .inr ⟨hfold.2, hfold.1, d :: ys, hw'.gives hys',
        .mk hp hys (hg.start_lt _ (List.mem_cons_self ..)) hshifted⟩

/-- A reader that decodes takes one logical character. -/
theorem next (h : cs.Trails bytes xs) (folds : Bool) :
    (xs = [] ∧ ∃ cs', cs.next .discard folds = .ok none cs' ∧ cs'.Trails bytes [] ∧
      cs'.units.encoding = cs.units.encoding) ∨
    ∃ c cs' rest, cs.next .discard folds = .ok (some c) cs' ∧ cs'.Trails bytes rest ∧
      cs'.units.encoding = cs.units.encoding ∧ cs.units.encoding.Takes folds xs c.char rest ∧
      (cs.units.encoding.isPlain c.char → cs'.Resumes bytes.length folds c.char rest) := by
  rcases h.take with ⟨rfl, u, htake, hu, he⟩ |
    ⟨c, u, block, more, htake, hu, he, rfl, hshows, hplain⟩
  · have hnext : cs.next .discard folds = .ok none ⟨u, none⟩ := by rw [Chars.next, htake]
    exact .inl ⟨rfl, _, hnext, ⟨h.within.of_next hnext, hu.looks⟩, he⟩
  right
  by_cases hfold : c.char = '\r' ∧ folds
  · have hcr := hfold.1 ▸ Encoding.isPlain_cr cs.units.encoding
    obtain ⟨x, rfl, hx⟩ := hshows.eq_singleton hcr
    obtain ⟨d, cs', rest, hnext, hrest, he', htakes, hresumes⟩ :=
      next_return h.within htake he hu (hplain hcr) hfold (hx.trans hfold.1)
    exact ⟨d, cs', rest, hnext, hrest, he', htakes, fun _ => hresumes⟩
  · have hnext : cs.next .discard folds = .ok (some c) ⟨u, none⟩ := by
      rw [Chars.next, htake]
      exact if_neg hfold
    have hw := h.within.of_next hnext
    exact ⟨c, _, more, hnext, ⟨hw, hu.looks⟩, he,
      hshows.takes fun hfolds hc => absurd ⟨hc, hfolds⟩ hfold,
      fun hc => .inl (hw.gives (hplain hc))⟩

end Trails

end Chars

end Tabular
