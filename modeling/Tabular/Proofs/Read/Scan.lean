/-
The characters that a reader is given, whatever its bytes.

* `Units.Runs` — units of a steady source, which end at some offset;
* `Units.Gives` — the characters that come of units, as they are reported;
* `Units.Runs.exists_gives` — every such source gives some;
* `Units.Holds.gives` — of what is in memory they are known;
* `uncons`, `Chars.Gives.next` — the next logical character.

Design notes: `Gives` goes by what is reported, so it holds also where the
last unit is cut short.  Whether the offsets that are reported are those of
the bytes is another matter.
-/
import Tabular.Proofs.Input.Steady
import Tabular.Proofs.Read.Chars

namespace Tabular

namespace Units

/-- The source goes on delivering up to offset `stop`.  A unit is put back only
after it has been read. -/
structure Runs (u : Units) (stop : Nat) : Prop where
  yields : ∃ bytes position, u.source.Yields bytes position ∧ position + bytes.length = stop
  pushed : u.pushed.isSome → 0 < u.source.position

namespace Runs

variable {u : Units} {stop : Nat}

/-- What becomes of units of which one is asked for. -/
structure Took (u : Units) (stop : Nat) (unit : Option Nat) (u' : Units) : Prop where
  runs : u'.Runs stop
  encoding : u'.encoding = u.encoding
  pushed : u'.pushed = none
  /-- No unit is given just at the end. -/
  ended : unit = none → u'.source.Yields [] stop ∧ u.position = stop
  given : unit.isSome → u.position < stop ∧ 0 < u'.source.position

theorem next (h : u.Runs stop) : ∃ unit u', u.next = .ok unit u' ∧ Took u stop unit u' := by
  obtain ⟨source, e, pushed⟩ := u
  obtain ⟨⟨bytes, p, hy, rfl⟩, hp⟩ := h
  have hw := e.unitWidth_pos
  rw [Units.next]
  dsimp only at hy hp ⊢
  cases pushed with
  | some unit =>
    have hpos : 0 < source.position := hp rfl
    refine ⟨some unit, _, rfl, ⟨⟨bytes, p, hy, rfl⟩, by simp⟩, rfl, rfl, by simp, fun _ => ⟨?_, hpos⟩⟩
    rw [Units.position, hy.position] at *
    simp only [Option.isSome_some, if_true]
    omega
  | none =>
    have hposition : Units.position ⟨source, e, none⟩ = p := by
      rw [Units.position, hy.position]
      simp
    obtain ⟨t, ht, hyields⟩ := hy.nextBytes e.unitWidth
    have hstop : p + min e.unitWidth bytes.length + (bytes.drop e.unitWidth).length =
        p + bytes.length := by
      rw [List.length_drop]
      omega
    have hruns : Runs ⟨t, e, none⟩ (p + bytes.length) := ⟨⟨_, _, hyields, hstop⟩, by simp⟩
    dsimp only
    rw [ht]
    cases hbytes : bytes.take e.unitWidth with
    | nil =>
      obtain rfl : bytes = [] := (List.take_eq_nil_iff.mp hbytes).resolve_left (Nat.ne_of_gt hw)
      exact ⟨none, _, rfl, hruns, rfl, rfl, fun _ => ⟨by simpa using hyields, hposition⟩, by simp⟩
    | cons b more =>
      have hlen : 0 < bytes.length := by
        rw [List.length_pos_iff]
        rintro rfl
        simp at hbytes
      refine ⟨_, _, rfl, hruns, rfl, rfl, by simp, fun _ => ?_⟩
      rw [hposition, hyields.position]
      omega

theorem of_next (h : u.Runs stop) {x : Attempt Units (Option Nat)} (hx : u.next = x) :
    ∃ unit u', x = .ok unit u' ∧ Took u stop unit u' := hx ▸ h.next

/-- A unit that has been read can be put back. -/
theorem unread (h : u.Runs stop) (hp : 0 < u.source.position) (unit : Nat) :
    (u.unread unit).Runs stop := ⟨h.yields, fun _ => hp⟩

/-- The units are at their end if their offset is. -/
theorem ended_of_position (h : u.Runs stop) (hposition : u.position = stop) :
    u.source.Yields [] stop ∧ u.pushed = none := by
  obtain ⟨⟨bytes, p, hy, rfl⟩, hpos⟩ := h
  have hw := u.encoding.unitWidth_pos
  rw [Units.position, hy.position] at hposition
  rw [hy.position] at hpos
  cases hp : u.pushed with
  | some unit =>
    have := hpos (by simp [hp])
    rw [hp, Option.isSome_some, if_pos rfl] at hposition
    omega
  | none =>
    rw [hp, Option.isSome_none, if_neg Bool.false_ne_true] at hposition
    obtain rfl : bytes = [] := List.eq_nil_of_length_eq_zero (by omega)
    exact ⟨hy, rfl⟩

theorem finish (h : u.Runs stop) (v : Unfinished) :
    ∃ c u', u.finish v = .ok c u' ∧ u'.Runs stop ∧ u'.encoding = u.encoding := by
  fun_induction Units.finish v u with
  | case1 v u e t ht =>
    obtain ⟨unit, u', hx, -⟩ := h.of_next ht
    exact absurd hx (by simp)
  | case2 v u t ht =>
    obtain ⟨unit, u', hx, htook⟩ := h.of_next ht
    obtain ⟨rfl, rfl⟩ := EStateM.Result.ok.inj hx
    exact ⟨_, _, rfl, htook.runs, htook.encoding⟩
  | case3 v u unit t ht hfeed =>
    obtain ⟨unit', u', hx, htook⟩ := h.of_next ht
    obtain ⟨rfl, rfl⟩ := EStateM.Result.ok.inj hx
    exact ⟨_, _, rfl, htook.runs.unread (htook.given rfl).2 unit, htook.encoding⟩
  | case4 v u unit t ht c hfeed =>
    obtain ⟨unit', u', hx, htook⟩ := h.of_next ht
    obtain ⟨rfl, rfl⟩ := EStateM.Result.ok.inj hx
    exact ⟨_, _, rfl, htook.runs, htook.encoding⟩
  | case5 v u unit t ht v' hfeed ih =>
    obtain ⟨unit', u', hx, htook⟩ := h.of_next ht
    obtain ⟨rfl, rfl⟩ := EStateM.Result.ok.inj hx
    obtain ⟨c, w, hfinish, hruns, hencoding⟩ := ih htook.runs
    exact ⟨c, w, hfinish, hruns, hencoding.trans htook.encoding⟩

/-- At the end no character is left, and before it there is one. -/
theorem readChar (h : u.Runs stop) (s : Strategy) :
    (∃ u', u.readChar s = .ok none u' ∧ u'.source.Yields [] stop ∧ u'.pushed = none ∧
      u'.encoding = u.encoding ∧ u.position = stop) ∨
    ∃ c u', u.readChar s = .ok (some c) u' ∧ u'.Runs stop ∧ u'.encoding = u.encoding ∧
      u.position < stop := by
  obtain ⟨unit, t, ht, htook⟩ := h.next
  cases unit with
  | none =>
    obtain ⟨hy, hposition⟩ := htook.ended rfl
    refine .inl ⟨t, ?_, hy, htook.pushed, htook.encoding, hposition⟩
    cases s with
    | raw =>
      show u.nextRaw = _
      rw [nextRaw, ht]
    | decode | view | discard =>
      show u.nextChar = _
      rw [nextChar, ht]
  | some unit =>
    obtain ⟨hlt, hpos⟩ := htook.given rfl
    have hchar : ∃ c u', u.nextChar = .ok (some c) u' ∧ u'.Runs stop ∧ u'.encoding = u.encoding := by
      rw [nextChar, ht]
      dsimp only
      cases Decode.start t.encoding unit with
      | char c => exact ⟨c, t, rfl, htook.runs, htook.encoding⟩
      | more v =>
        obtain ⟨c, u', hfinish, hruns, hencoding⟩ := htook.runs.finish v
        dsimp only
        rw [hfinish]
        exact ⟨c, u', rfl, hruns, hencoding.trans htook.encoding⟩
    right
    cases s with
    | raw =>
      refine ⟨rawChar unit, t, ?_, htook.runs, htook.encoding, hlt⟩
      show u.nextRaw = _
      rw [nextRaw, ht]
    | decode | view | discard =>
      obtain ⟨c, u', hc, hruns, hencoding⟩ := hchar
      exact ⟨c, u', hc, hruns, hencoding, hlt⟩

end Runs

/-- The characters that a strategy reads from units, each as it is reported,
up to the end of the units at offset `stop`. -/
inductive Gives (s : Strategy) (stop : Nat) : Units → List Scanned → Prop
  | nil {u : Units} (hy : u.source.Yields [] stop) (hp : u.pushed = none) : Gives s stop u []
  | cons {u u' : Units} {c : Scanned} {cs : List Scanned} (hc : u.scan s = .ok (some c) u')
      (he : u'.encoding = u.encoding) (hlt : u.position < stop) (h : Gives s stop u' cs) :
      Gives s stop u (c :: cs)

namespace Gives

variable {s s' : Strategy} {stop : Nat} {u u' : Units} {c : Scanned} {cs : List Scanned}

/-- A character begins where the units before it end. -/
theorem start_eq (hc : u.scan s = .ok (some c) u') : c.span.start = u.position := by
  rw [scan] at hc
  split at hc
  · simp at hc
  · simp at hc
  · obtain ⟨hc, -⟩ := EStateM.Result.ok.inj hc
    rw [← Option.some.inj hc]

theorem position (h : Gives s stop u cs) : u.position = offsetOf stop cs := by
  cases h with
  | nil hy hp => simp [Units.position, hp, hy.position, offsetOf]
  | cons hc => exact (start_eq hc).symm

theorem start_lt (h : Gives s stop u cs) : ∀ c ∈ cs, c.span.start < stop := by
  induction h with
  | nil => simp
  | cons hc he hlt h ih =>
    rw [List.forall_mem_cons, start_eq hc]
    exact ⟨hlt, ih⟩

/-- Which of the strategies decodes makes no difference. -/
theorem of_decoding (hs : s ≠ .raw) (hs' : s' ≠ .raw) (h : Gives s stop u cs) :
    Gives s' stop u cs := by
  have hscan : ∀ u : Units, u.scan s' = u.scan s := by
    intro u
    cases s <;> cases s' <;> first | rfl | exact absurd rfl hs | exact absurd rfl hs'
  induction h with
  | nil hy hp => exact .nil hy hp
  | cons hc he hlt h ih => exact .cons ((hscan _).trans hc) he hlt ih

theorem scan_nil (h : Gives s stop u []) :
    ∃ u', u.scan s = .ok none u' ∧ Gives s stop u' [] ∧ u'.encoding = u.encoding := by
  cases h with
  | nil hy hp =>
    have hruns : u.Runs stop := ⟨⟨[], stop, hy, rfl⟩, by simp [hp]⟩
    have hposition : u.position = stop := position (.nil (s := s) hy hp)
    rcases hruns.readChar s with ⟨u', hread, hy', hp', he, -⟩ | ⟨c, u', -, -, -, hlt⟩
    · refine ⟨u', ?_, .nil hy' hp', he⟩
      rw [scan, hread]
    · omega

end Gives

/-- Every source that goes on delivering gives some characters, up to its end. -/
theorem Runs.exists_gives {u : Units} {stop : Nat} (h : u.Runs stop) (s : Strategy) :
    ∃ cs, Gives s stop u cs := by
  induction hn : u.left using Nat.strongRecOn generalizing u with
  | _ n ih =>
    subst hn
    rcases h.readChar s with ⟨u', -, -, -, -, hposition⟩ | ⟨c, u', hread, hruns, he, hlt⟩
    · obtain ⟨hy, hp⟩ := h.ended_of_position hposition
      exact ⟨[], .nil hy hp⟩
    · obtain ⟨cs, hcs⟩ := ih u'.left (readChar_some hread) hruns rfl
      refine ⟨⟨c, u.position, u'.position⟩ :: cs, .cons ?_ he hlt hcs⟩
      rw [scan, hread]

/-- What there is in memory is given. -/
theorem Holds.gives {u : Units} {stop : Nat} {units : List Nat} (h : u.Holds stop units)
    (s : Strategy) : u.Gives s stop (s.scanned u.encoding stop units) := by
  generalize he : u.encoding = e
  induction units using s.induction_first e generalizing u with
  | nil =>
    obtain ⟨hm, ⟨rest, hg, hnil⟩, hstop, -⟩ := h
    obtain ⟨hp, rfl⟩ := List.append_eq_nil_iff.mp hnil.symm
    have hunread : u.source.unread = [] := by simpa using hg.length
    have hrest : u.source.rest = [] := by rw [Source.rest, hunread, hm]; rfl
    rw [hunread] at hstop
    rw [Strategy.scanned_nil]
    exact .nil ⟨⟨by rw [hm]; simp, .inr hrest⟩, hrest, hstop⟩ (by simpa using hp)
  | step units c rest hf ih =>
    subst he
    obtain ⟨u', hread, h', he'⟩ := h.readChar hf
    have hposition := h.position
    have hposition' := h'.position
    rw [he'] at hposition'
    have hscan : u.scan s = .ok (some ⟨c, u.position, u'.position⟩) u' := by rw [Units.scan, hread]
    have hlt : u.position < stop := by
      have hpos : 0 < u.encoding.unitWidth * units.length :=
        Nat.mul_pos u.encoding.unitWidth_pos (Nat.zero_lt_of_lt (Strategy.length_lt_of_first hf))
      omega
    rw [Strategy.scanned_of_first hf, ← Nat.eq_sub_of_add_eq hposition,
      ← Nat.eq_sub_of_add_eq hposition']
    exact .cons hscan he' hlt (ih h' he')

end Units

/-- The first logical character, and the characters after it. -/
def uncons (folds : Bool) : List Scanned → Option (Scanned × List Scanned)
  | [] => none
  | [c] => some (c, [])
  | c :: d :: cs =>
    if c.char = '\r' ∧ folds ∧ d.char = '\n' then some (⟨'\n', c.span.start, d.span.stop⟩, cs)
    else some (c, d :: cs)

theorem length_lt_of_uncons {folds : Bool} {c : Scanned} {cs rest : List Scanned}
    (h : uncons folds cs = some (c, rest)) : rest.length < cs.length := by
  fun_cases uncons folds cs with
  | case1 => simp [uncons] at h
  | case2 d =>
    obtain ⟨-, rfl⟩ := Prod.mk.inj (Option.some.inj h)
    exact Nat.lt_succ_self _
  | case3 a b cs hfold =>
    rw [uncons, if_pos hfold] at h
    obtain ⟨-, rfl⟩ := Prod.mk.inj (Option.some.inj h)
    exact Nat.lt_succ_of_lt (Nat.lt_succ_self _)
  | case4 a b cs hfold =>
    rw [uncons, if_neg hfold] at h
    obtain ⟨-, rfl⟩ := Prod.mk.inj (Option.some.inj h)
    exact Nat.lt_succ_self _

theorem uncons_eq_none {folds : Bool} {cs : List Scanned} (h : uncons folds cs = none) :
    cs = [] := by
  fun_cases uncons folds cs with
  | case1 => rfl
  | case2 => simp [uncons] at h
  | case3 a b cs hfold =>
    rw [uncons, if_pos hfold] at h
    simp at h
  | case4 a b cs hfold =>
    rw [uncons, if_neg hfold] at h
    simp at h

namespace Chars

/-- The characters still to come, one of which may have been read ahead. -/
structure Gives (cs : Chars) (s : Strategy) (stop : Nat) (chars : List Scanned) : Prop where
  units : ∃ more, cs.units.Gives s stop more ∧ chars = cs.ahead.toList ++ more
  start_lt : ∀ c ∈ chars, c.span.start < stop

variable {cs : Chars} {s s' : Strategy} {stop : Nat} {c : Scanned} {chars rest : List Scanned}
  {folds : Bool}

theorem gives_ofUnits {u : Units} (h : u.Gives s stop chars) :
    (Chars.mk u none).Gives s stop chars := ⟨⟨chars, h, rfl⟩, h.start_lt⟩

namespace Gives

theorem position (h : cs.Gives s stop chars) : cs.position = offsetOf stop chars := by
  obtain ⟨more, hu, rfl⟩ := h.units
  rw [Chars.position]
  cases cs.ahead with
  | some c => rfl
  | none => exact hu.position

theorem of_decoding (hs : s ≠ .raw) (hs' : s' ≠ .raw) (h : cs.Gives s stop chars) :
    cs.Gives s' stop chars := by
  obtain ⟨more, hu, heq⟩ := h.units
  exact ⟨⟨more, hu.of_decoding hs hs', heq⟩, h.start_lt⟩

theorem take_nil (h : cs.Gives s stop []) :
    ∃ cs', cs.take s = .ok none cs' ∧ cs'.Gives s stop [] ∧
      cs'.units.encoding = cs.units.encoding := by
  obtain ⟨units, ahead⟩ := cs
  obtain ⟨more, hu, heq⟩ := h.units
  obtain ⟨hahead, rfl⟩ := List.append_eq_nil_iff.mp heq.symm
  obtain rfl : ahead = none := by simpa using hahead
  obtain ⟨u', hscan, hu', he⟩ := hu.scan_nil
  refine ⟨⟨u', none⟩, ?_, gives_ofUnits hu', he⟩
  rw [Chars.take, hscan]

theorem take (h : cs.Gives s stop (c :: chars)) :
    ∃ u, cs.take s = .ok (some c) ⟨u, none⟩ ∧ u.Gives s stop chars ∧
      u.encoding = cs.units.encoding := by
  obtain ⟨units, ahead⟩ := cs
  obtain ⟨more, hu, heq⟩ := h.units
  cases ahead with
  | some d =>
    obtain ⟨rfl, rfl⟩ := List.cons.inj heq
    exact ⟨units, rfl, hu, rfl⟩
  | none =>
    obtain rfl : more = c :: chars := heq.symm
    cases hu with
    | cons hc he hlt hu =>
      refine ⟨_, ?_, hu, he⟩
      rw [Chars.take, hc]

/-- There is no next character just at the end. -/
theorem next_nil (h : cs.Gives s stop []) (folds : Bool) :
    ∃ cs', cs.next s folds = .ok none cs' ∧ cs'.Gives s stop [] ∧
      cs'.units.encoding = cs.units.encoding := by
  obtain ⟨cs', htake, hcs', he⟩ := h.take_nil
  refine ⟨cs', ?_, hcs', he⟩
  rw [Chars.next, htake]

/-- The next logical character is the first of those to come. -/
theorem next (h : cs.Gives s stop chars) (hc : uncons folds chars = some (c, rest)) :
    ∃ cs', cs.next s folds = .ok (some c) cs' ∧ cs'.Gives s stop rest ∧
      cs'.units.encoding = cs.units.encoding := by
  cases chars with
  | nil => simp [uncons] at hc
  | cons x chars =>
    obtain ⟨u, htake, hu, he⟩ := h.take
    rw [Chars.next, htake]
    dsimp only
    by_cases hfold : x.char = '\r' ∧ folds
    · rw [if_pos hfold]
      cases chars with
      | nil =>
        obtain ⟨rfl, rfl⟩ : x = c ∧ [] = rest := by simpa [uncons] using hc
        obtain ⟨u', hscan, hu', he'⟩ := hu.scan_nil
        rw [hscan]
        exact ⟨_, rfl, gives_ofUnits hu', he'.trans he⟩
      | cons d chars =>
        have hlt := h.start_lt d (by simp)
        cases hu with
        | cons hscan he' _ hu =>
          rw [hscan]
          dsimp only
          by_cases hd : d.char = '\n'
          · rw [uncons, if_pos ⟨hfold.1, hfold.2, hd⟩] at hc
            obtain ⟨rfl, rfl⟩ := Prod.mk.inj (Option.some.inj hc)
            rw [if_pos hd]
            exact ⟨_, rfl, gives_ofUnits hu, he'.trans he⟩
          · rw [uncons, if_neg fun hcond => hd hcond.2.2] at hc
            obtain ⟨rfl, rfl⟩ := Prod.mk.inj (Option.some.inj hc)
            rw [if_neg hd]
            -- Not a line feed: it is kept for the next time.
            exact ⟨_, rfl, ⟨⟨_, hu, rfl⟩, fun y hy => h.start_lt y (List.mem_cons_of_mem _ hy)⟩,
              he'.trans he⟩
    · rw [if_neg hfold]
      have hx : x = c ∧ chars = rest := by
        cases chars with
        | nil => simpa [uncons] using hc
        | cons d chars =>
          rw [uncons, if_neg fun hcond => hfold ⟨hcond.1, hcond.2.1⟩] at hc
          exact Prod.mk.inj (Option.some.inj hc)
      obtain ⟨rfl, rfl⟩ := hx
      exact ⟨_, rfl, gives_ofUnits hu, he⟩

end Gives

end Chars

end Tabular
