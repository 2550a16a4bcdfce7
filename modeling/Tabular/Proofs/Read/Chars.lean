/-
The logical characters of a text in memory, as one list.

* `Strategy.scanned` — the characters that units are read as, with the bytes
  that each stands on;
* `joinCrLf`, `logical` — the same with CR LF folded;
* `Chars.Reads` — the logical characters still to come;
* `Chars.Reads.next` — one comes off the front.

Design notes: `Chars` keeps a character that it has looked at, so where it
stands is a character and some units.  `Reads` hides this: from here on a
reader of a text in memory is an automaton over a list of characters.
-/
import Tabular.Read.Chars
import Tabular.Proofs.Input.Memory

namespace Tabular

namespace Strategy

/-- The first character of `units`, and the units after it. -/
def first (s : Strategy) (e : Encoding) (units : List Nat) : Option (Char × List Nat) :=
  match s, units with
  | .raw, [] => none
  | .raw, unit :: units => some (rawChar unit, units)
  | .decode, _ | .view, _ | .discard, _ => Decode.first e units

theorem first_eq_decode {s : Strategy} (hs : s ≠ .raw) (e : Encoding) (units : List Nat) :
    s.first e units = Decode.first e units := by
  cases s with
  | raw => exact absurd rfl hs
  | decode | view | discard => rfl

theorem first_nil (s : Strategy) (e : Encoding) : s.first e [] = none := by
  cases s <;> rfl

theorem exists_first (s : Strategy) (e : Encoding) (unit : Nat) (units : List Nat) :
    ∃ c rest, s.first e (unit :: units) = some (c, rest) := by
  cases s with
  | raw => exact ⟨_, _, rfl⟩
  | decode | view | discard => exact Decode.exists_first e unit units

theorem length_lt_of_first {s : Strategy} {e : Encoding} {units rest : List Nat} {c : Char}
    (h : s.first e units = some (c, rest)) : rest.length < units.length := by
  cases s with
  | raw =>
    cases units with
    | nil => simp [first] at h
    | cons unit units =>
      obtain ⟨-, rfl⟩ : _ ∧ units = rest := by simpa [first] using h
      exact Nat.lt_succ_self _
  | decode | view | discard => exact Decode.length_lt_of_first h

/-- Induction on what is left when a character has been taken. -/
theorem induction_first (s : Strategy) (e : Encoding) {motive : List Nat → Prop} (nil : motive [])
    (step : ∀ units c rest, s.first e units = some (c, rest) → motive rest → motive units)
    (units : List Nat) : motive units := by
  induction hn : units.length using Nat.strongRecOn generalizing units with
  | _ n ih =>
    cases units with
    | nil => exact nil
    | cons unit units =>
      obtain ⟨c, rest, hf⟩ := s.exists_first e unit units
      exact step _ c rest hf (ih rest.length (hn ▸ length_lt_of_first hf) rest rfl)

/-- The characters that `units` are read as, where the last unit ends at
offset `stop`. -/
def scanned (s : Strategy) (e : Encoding) (stop : Nat) (units : List Nat) : List Scanned :=
  match _h : s.first e units with
  | none => []
  | some (c, rest) =>
    ⟨c, ⟨stop - e.unitWidth * units.length, stop - e.unitWidth * rest.length⟩⟩ ::
      scanned s e stop rest
termination_by units.length
decreasing_by exact length_lt_of_first _h

section

variable {s : Strategy} {e : Encoding} {stop : Nat} {units rest : List Nat} {c : Char}

@[simp] theorem scanned_nil : s.scanned e stop [] = [] := by
  rw [scanned]
  split
  · rfl
  · rename_i h
    simp [first_nil] at h

theorem scanned_of_first (h : s.first e units = some (c, rest)) :
    s.scanned e stop units =
      ⟨c, ⟨stop - e.unitWidth * units.length, stop - e.unitWidth * rest.length⟩⟩ ::
        s.scanned e stop rest := by
  rw [scanned]
  split
  · rename_i hn
    rw [h] at hn
    simp at hn
  · rename_i hn
    rw [h] at hn
    obtain ⟨rfl, rfl⟩ : c = _ ∧ rest = _ := by simpa using hn
    rfl

/-- Which of the strategies decodes makes no difference. -/
theorem scanned_eq_decode (hs : s ≠ .raw) (units : List Nat) :
    s.scanned e stop units = Strategy.decode.scanned e stop units := by
  induction units using s.induction_first e with
  | nil => simp
  | step units c rest hf ih =>
    have hf' : Strategy.decode.first e units = some (c, rest) :=
      (first_eq_decode hs e units).symm.trans hf
    rw [scanned_of_first hf, scanned_of_first hf', ih]

/-- The characters of a text are the text. -/
theorem map_char_scanned (hs : s ≠ .raw) (units : List Nat) :
    (s.scanned e stop units).map Scanned.char = e.decode units := by
  induction units using s.induction_first e with
  | nil => simp
  | step units c rest hf ih =>
    rw [scanned_of_first hf, List.map_cons, ih]
    rw [first_eq_decode hs] at hf
    rw [Decode.decode_of_first hf]

/-- A text can be cut before a unit that no character goes on with. -/
theorem scanned_append (hs : s ≠ .raw) {more : List Nat} (hm : Decode.Fresh more)
    (units : List Nat) :
    s.scanned e stop (units ++ more) =
      s.scanned e (stop - e.unitWidth * more.length) units ++ s.scanned e stop more := by
  induction units using s.induction_first e with
  | nil => simp
  | step units c rest hf ih =>
    -- The first character is the same whatever comes after, as `more` begins a new one.
    have hf' : s.first e (units ++ more) = some (c, rest ++ more) := by
      rw [first_eq_decode hs] at hf ⊢
      exact Decode.first_append (hm.freshIn e) hf
    rw [scanned_of_first hf, scanned_of_first hf', ih, List.length_append, List.length_append,
      Nat.mul_add, Nat.mul_add, Nat.sub_sub, Nat.sub_sub,
      Nat.add_comm (e.unitWidth * more.length), Nat.add_comm (e.unitWidth * more.length)]
    rfl

/-- Every character begins before the end. -/
theorem start_lt_of_mem_scanned (hle : e.unitWidth * units.length ≤ stop) {d : Scanned}
    (hd : d ∈ s.scanned e stop units) : d.span.start < stop := by
  induction units using s.induction_first e with
  | nil => simp at hd
  | step units c rest hf ih =>
    have hlt := length_lt_of_first hf
    have hmul : e.unitWidth * rest.length ≤ e.unitWidth * units.length :=
      Nat.mul_le_mul_left _ (Nat.le_of_lt hlt)
    rw [scanned_of_first hf] at hd
    rcases List.mem_cons.mp hd with rfl | hd
    · have hpos : 0 < e.unitWidth * units.length :=
        Nat.mul_pos e.unitWidth_pos (Nat.zero_lt_of_lt hlt)
      dsimp only
      omega
    · exact ih (Nat.le_trans hmul hle) hd

end

end Strategy

/-! ### Folding -/

/-- The offset at which characters begin, where the text ends at `stop`. -/
def offsetOf (stop : Nat) : List Scanned → Nat
  | [] => stop
  | c :: _ => c.span.start

/-- CR LF made one character, a line feed on the bytes of both. -/
def joinCrLf : List Scanned → List Scanned
  | c :: d :: cs =>
    if c.char = '\r' ∧ d.char = '\n' then ⟨'\n', c.span.start, d.span.stop⟩ :: joinCrLf cs
    else c :: joinCrLf (d :: cs)
  | cs => cs

/-- The logical characters. -/
def logical (folds : Bool) (cs : List Scanned) : List Scanned :=
  if folds then joinCrLf cs else cs

section

variable {folds : Bool} {c d : Scanned} {cs : List Scanned}

@[simp] theorem logical_nil : logical folds [] = [] := by
  cases folds <;> rfl

@[simp] theorem logical_false : logical false cs = cs := rfl

theorem logical_crlf (hc : c.char = '\r') (hd : d.char = '\n') :
    logical true (c :: d :: cs) = ⟨'\n', c.span.start, d.span.stop⟩ :: logical true cs := by
  show joinCrLf _ = _
  rw [joinCrLf, if_pos ⟨hc, hd⟩]
  rfl

/-- A character that is not the CR of a CR LF stands for itself. -/
theorem logical_cons (h : folds → c.char = '\r' → ∀ d ∈ cs.head?, d.char ≠ '\n') :
    logical folds (c :: cs) = c :: logical folds cs := by
  cases folds with
  | false => rfl
  | true =>
    cases cs with
    | nil => rfl
    | cons d cs =>
      show joinCrLf _ = c :: joinCrLf _
      rw [joinCrLf, if_neg]
      rintro ⟨hc, hd⟩
      exact h rfl hc d rfl hd

/-- Folding does not change where a text begins. -/
theorem offsetOf_logical (folds : Bool) (stop : Nat) (cs : List Scanned) :
    offsetOf stop (logical folds cs) = offsetOf stop cs := by
  cases cs with
  | nil => simp
  | cons c cs =>
    -- Folded or not, the first character begins where it did.
    by_cases h : folds → c.char = '\r' → ∀ d ∈ cs.head?, d.char ≠ '\n'
    · rw [logical_cons h]
      rfl
    · push Not at h
      obtain ⟨rfl, hc, d, hd, hd'⟩ := h
      obtain ⟨ds, rfl⟩ : ∃ ds, cs = d :: ds := by
        cases cs with
        | nil => simp at hd
        | cons x ds => exact ⟨ds, by rw [Option.some.inj hd]⟩
      rw [logical_crlf hc hd']
      rfl

/-- Folding goes on anew after anything but a CR. -/
theorem logical_append {as bs : List Scanned}
    (h : folds → ∀ a ∈ as.getLast?, a.char = '\r' → ∀ b ∈ bs.head?, b.char ≠ '\n') :
    logical folds (as ++ bs) = logical folds as ++ logical folds bs := by
  cases folds with
  | false => rfl
  | true =>
    show joinCrLf (as ++ bs) = joinCrLf as ++ joinCrLf bs
    fun_induction joinCrLf as with
    | case1 c d cs hcd ih =>
      rw [List.cons_append, List.cons_append, joinCrLf, if_pos hcd, List.cons_append, ih]
      -- The last character of `as` is that of what is left of it.
      intro _ a ha
      cases cs with
      | nil => simp at ha
      | cons x cs => exact h rfl a (by simpa using ha)
    | case2 c d cs hcd ih =>
      rw [List.cons_append, List.cons_append, joinCrLf, if_neg hcd, List.cons_append,
        ← List.cons_append, ih]
      intro _ a ha
      exact h rfl a (by simpa using ha)
    | case3 cs hcs =>
      cases cs with
      | nil => rfl
      | cons c cs =>
        cases cs with
        | nil =>
          show logical true (c :: bs) = c :: logical true bs
          exact logical_cons fun _ hc => h rfl c rfl hc
        | cons d cs => exact absurd rfl (hcs c d cs)

/-- Where there is no line feed nothing is folded. -/
theorem logical_eq_self (h : folds → ∀ c ∈ cs, c.char ≠ '\n') : logical folds cs = cs := by
  induction cs with
  | nil => simp
  | cons c cs ih =>
    rw [logical_cons, ih fun hf d hd => h hf d (List.mem_cons_of_mem _ hd)]
    intro hf _ d hd
    exact h hf d (List.mem_cons_of_mem _ (List.mem_of_mem_head? hd))

end

/-! ### Reading them -/

namespace Units

theorem Holds.scan_nil {u : Units} {stop : Nat} (h : u.Holds stop []) (s : Strategy) :
    u.scan s = .ok none u := by
  have : u.readChar s = .ok none u := by
    cases s with
    | raw =>
      show u.nextRaw = _
      rw [nextRaw, h.next_nil]
    | decode | view | discard => exact h.nextChar_nil
  rw [scan, this]

theorem Holds.readChar {u : Units} {stop : Nat} {s : Strategy} {units rest : List Nat} {c : Char}
    (h : u.Holds stop units) (hf : s.first u.encoding units = some (c, rest)) :
    ∃ u', u.readChar s = .ok (some c) u' ∧ u'.Holds stop rest ∧ u'.encoding = u.encoding := by
  cases s with
  | raw =>
    cases units with
    | nil => simp [Strategy.first] at hf
    | cons unit units =>
      obtain ⟨rfl, rfl⟩ : _ = c ∧ units = rest := by simpa [Strategy.first] using hf
      obtain ⟨u', hnext, h', he, -⟩ := h.next
      refine ⟨u', ?_, h', he⟩
      show u.nextRaw = _
      rw [nextRaw, hnext]
  | decode | view | discard => exact h.nextChar hf

/-- The next character and its bytes are the first of those to come. -/
theorem Holds.scan {u : Units} {stop : Nat} {s : Strategy} {unit : Nat} {units : List Nat}
    (h : u.Holds stop (unit :: units)) :
    ∃ c u' rest, u.scan s = .ok (some c) u' ∧ u'.Holds stop rest ∧ u'.encoding = u.encoding ∧
      s.scanned u.encoding stop (unit :: units) = c :: s.scanned u.encoding stop rest := by
  obtain ⟨c, rest, hf⟩ := s.exists_first u.encoding unit units
  obtain ⟨u', hread, h', he⟩ := h.readChar hf
  have hp := h.position
  have hp' := h'.position
  rw [he] at hp'
  refine ⟨⟨c, u.position, u'.position⟩, u', rest, ?_, h', he, ?_⟩
  · rw [Units.scan, hread]
  · rw [Strategy.scanned_of_first hf, ← Nat.eq_sub_of_add_eq hp, ← Nat.eq_sub_of_add_eq hp']

end Units

namespace Chars

/-- The characters still to come, not yet folded. -/
structure Holds (cs : Chars) (s : Strategy) (stop : Nat) (scanned : List Scanned) : Prop where
  units : ∃ units, cs.units.Holds stop units ∧
    scanned = cs.ahead.toList ++ s.scanned cs.units.encoding stop units
  start_lt : ∀ c ∈ scanned, c.span.start < stop

/-- The logical characters still to come. -/
def Reads (cs : Chars) (s : Strategy) (folds : Bool) (stop : Nat) (chars : List Scanned) : Prop :=
  ∃ scanned, cs.Holds s stop scanned ∧ logical folds scanned = chars

variable {cs : Chars} {s : Strategy} {stop : Nat}

theorem holds_ofUnits {u : Units} {units : List Nat} (h : u.Holds stop units) :
    (Chars.mk u none).Holds s stop (s.scanned u.encoding stop units) :=
  ⟨⟨units, h, rfl⟩, fun _ => Strategy.start_lt_of_mem_scanned (h.position ▸ Nat.le_add_left ..)⟩

namespace Holds

theorem position {scanned : List Scanned} (h : cs.Holds s stop scanned) :
    cs.position = offsetOf stop scanned := by
  obtain ⟨⟨units, hu, rfl⟩, -⟩ := h
  rw [Chars.position]
  cases cs.ahead with
  | some c => rfl
  | none =>
    cases units with
    | nil => simpa [offsetOf] using hu.position
    | cons unit units =>
      obtain ⟨c, rest, hf⟩ := s.exists_first cs.units.encoding unit units
      simp only [Option.toList_none, List.nil_append, Strategy.scanned_of_first hf, offsetOf]
      exact Nat.eq_sub_of_add_eq hu.position

/-- Which of the strategies decodes makes no difference. -/
theorem of_decoding {s' : Strategy} {scanned : List Scanned} (hs : s ≠ .raw) (hs' : s' ≠ .raw)
    (h : cs.Holds s stop scanned) : cs.Holds s' stop scanned := by
  obtain ⟨⟨units, hu, rfl⟩, hlt⟩ := h
  refine ⟨⟨units, hu, ?_⟩, hlt⟩
  rw [Strategy.scanned_eq_decode hs, Strategy.scanned_eq_decode hs']

/-- The next character that is not read ahead, with what is left. -/
theorem scan {c : Scanned} {scanned : List Scanned} (h : cs.Holds s stop (c :: scanned))
    (ha : cs.ahead = none) :
    ∃ u, cs.units.scan s = .ok (some c) u ∧ (Chars.mk u none).Holds s stop scanned ∧
      u.encoding = cs.units.encoding := by
  obtain ⟨⟨units, hu, heq⟩, hlt⟩ := h
  rw [ha, Option.toList_none, List.nil_append] at heq
  cases units with
  | nil => simp at heq
  | cons unit units =>
    obtain ⟨c', u, rest, hscan, hu', he, hrest⟩ := hu.scan (s := s)
    rw [hrest] at heq
    obtain ⟨rfl, rfl⟩ := List.cons.inj heq
    refine ⟨u, hscan, ⟨⟨rest, hu', ?_⟩, fun d hd => hlt d (List.mem_cons_of_mem _ hd)⟩, he⟩
    rw [he]
    rfl

theorem scan_nil (h : cs.Holds s stop []) :
    cs.ahead = none ∧ cs.units.scan s = .ok none cs.units := by
  obtain ⟨⟨units, hu, heq⟩, -⟩ := h
  obtain ⟨ha, hs⟩ := List.append_eq_nil_iff.mp heq.symm
  refine ⟨by simpa using ha, ?_⟩
  -- A unit that is left would be read as a character.
  cases units with
  | nil => exact hu.scan_nil s
  | cons unit units =>
    obtain ⟨c, rest, hf⟩ := s.exists_first cs.units.encoding unit units
    simp [Strategy.scanned_of_first hf] at hs

theorem take_nil (h : cs.Holds s stop []) : cs.take s = .ok none cs := by
  obtain ⟨ha, hscan⟩ := h.scan_nil
  obtain ⟨units, ahead⟩ := cs
  obtain rfl : ahead = none := ha
  simp only [Chars.take, hscan]

theorem take {c : Scanned} {scanned : List Scanned} (h : cs.Holds s stop (c :: scanned)) :
    ∃ u, cs.take s = .ok (some c) ⟨u, none⟩ ∧ (Chars.mk u none).Holds s stop scanned ∧
      u.encoding = cs.units.encoding := by
  cases ha : cs.ahead with
  | none =>
    obtain ⟨u, hscan, hu, he⟩ := h.scan ha
    refine ⟨u, ?_, hu, he⟩
    rw [Chars.take, ha, hscan]
  | some d =>
    obtain ⟨⟨units, hu, heq⟩, hlt⟩ := h
    obtain ⟨rfl, rfl⟩ : c = d ∧ scanned = _ := by simpa [ha] using heq
    refine ⟨cs.units, ?_, ⟨⟨units, hu, rfl⟩, fun x hx => hlt x (List.mem_cons_of_mem _ hx)⟩, rfl⟩
    rw [Chars.take, ha]

/-- A character that has been read can be kept for later. -/
theorem keep {u : Units} {d : Scanned} {scanned : List Scanned}
    (h : (Chars.mk u none).Holds s stop scanned) (hd : d.span.start < stop) :
    (Chars.mk u (some d)).Holds s stop (d :: scanned) := by
  obtain ⟨⟨units, hu, rfl⟩, hlt⟩ := h
  refine ⟨⟨units, hu, rfl⟩, ?_⟩
  rintro x (_ | ⟨_, hx⟩)
  · exact hd
  · exact hlt x hx

end Holds

namespace Reads

variable {folds : Bool}

theorem position {chars : List Scanned} (h : cs.Reads s folds stop chars) :
    cs.position = offsetOf stop chars := by
  obtain ⟨scanned, hs, rfl⟩ := h
  rw [hs.position, offsetOf_logical]

/-- What is still to come begins before the end. -/
theorem offsetOf_lt {chars : List Scanned} (h : cs.Reads s folds stop chars) (hne : chars ≠ []) :
    offsetOf stop chars < stop := by
  obtain ⟨scanned, hs, rfl⟩ := h
  rw [offsetOf_logical]
  cases scanned with
  | nil => simp at hne
  | cons c scanned => exact hs.start_lt c (List.mem_cons_self ..)

theorem of_decoding {s' : Strategy} {chars : List Scanned} (hs : s ≠ .raw) (hs' : s' ≠ .raw)
    (h : cs.Reads s folds stop chars) : cs.Reads s' folds stop chars := by
  obtain ⟨scanned, hh, heq⟩ := h
  exact ⟨scanned, hh.of_decoding hs hs', heq⟩

theorem next_nil (h : cs.Reads s folds stop []) : cs.next s folds = .ok none cs := by
  obtain ⟨scanned, hs, heq⟩ := h
  cases scanned with
  | nil => rw [Chars.next, hs.take_nil]
  | cons c scanned =>
    -- Folding never makes nothing of something.
    have := offsetOf_logical folds 0 (c :: scanned)
    cases hl : logical folds (c :: scanned) with
    | nil =>
      rw [logical] at hl
      split at hl
      · cases scanned with
        | nil => simp [joinCrLf] at hl
        | cons d scanned =>
          rw [joinCrLf] at hl
          split at hl <;> simp at hl
      · simp at hl
    | cons d chars => simp [hl] at heq

/-- The next logical character is the first of those to come. -/
theorem next {c : Scanned} {chars : List Scanned} (h : cs.Reads s folds stop (c :: chars)) :
    ∃ cs', cs.next s folds = .ok (some c) cs' ∧ cs'.Reads s folds stop chars ∧
      cs'.units.encoding = cs.units.encoding := by
  obtain ⟨scanned, hs, heq⟩ := h
  cases scanned with
  | nil => simp at heq
  | cons x scanned =>
    obtain ⟨u, htake, hu, he⟩ := hs.take
    rw [Chars.next, htake]
    dsimp only
    by_cases hfold : x.char = '\r' ∧ folds
    · rw [if_pos hfold]
      obtain ⟨hx, rfl⟩ := hfold
      cases scanned with
      | nil =>
        obtain ⟨rfl, rfl⟩ : x = c ∧ [] = chars := by simpa [logical, joinCrLf] using heq
        rw [hu.scan_nil.2]
        -- A carriage return at the very end stands for itself.
        exact ⟨_, rfl, ⟨[], hu, rfl⟩, he⟩
      | cons d scanned =>
        obtain ⟨u', hscan, hu', he'⟩ := hu.scan rfl
        rw [hscan]
        dsimp only
        by_cases hd : d.char = '\n'
        · rw [if_pos hd]
          rw [logical_crlf hx hd] at heq
          obtain ⟨rfl, rfl⟩ := List.cons.inj heq
          exact ⟨_, rfl, ⟨scanned, hu', rfl⟩, he'.trans he⟩
        · rw [if_neg hd]
          -- Not a line feed: it is kept for the next time.
          have hd' : ∀ y ∈ (d :: scanned).head?, y.char ≠ '\n' := by
            rintro y hy
            obtain rfl := Option.some.inj hy
            exact hd
          rw [logical_cons fun _ _ => hd'] at heq
          obtain ⟨rfl, rfl⟩ := List.cons.inj heq
          exact ⟨_, rfl, ⟨d :: scanned, hu'.keep (hu.start_lt d (List.mem_cons_self ..)), rfl⟩,
            he'.trans he⟩
    · rw [if_neg hfold]
      rw [logical_cons fun hf hx => absurd ⟨hx, hf⟩ hfold] at heq
      obtain ⟨rfl, rfl⟩ := List.cons.inj heq
      exact ⟨_, rfl, ⟨scanned, hu, rfl⟩, he⟩

end Reads

end Chars

end Tabular
