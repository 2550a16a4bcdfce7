/-
Reading a text in memory.

A source in memory never fails, so what it gives is a matter of its bytes:

* `Source.nextBytes_append`, `Source.skip_append` — bytes come off the front;
* `Encoding.Groups` — the code units that bytes group into;
* `Units.Tracks` — a relation of a reader to the units still to come that goes
  on with every unit, and so with every character;
* `Units.Holds` — the units still to come, and where they end;
* `Units.Holds.next`, `Units.Holds.nextChar` — a unit or a character comes off
  the front of them.

Design notes: `Holds` says nothing of a unit that the end of the input cuts
short, since the position of one that is put back is not that of its bytes.
-/
import Mathlib.Tactic.Common
import Tabular.Input.Units
import Tabular.Proofs.Text.FirstChar

namespace Tabular

namespace Source

/-- Everything that the source will give is in its buffer. -/
def InMemory (s : Source) : Prop := s.feed = ⟨[], []⟩

/-- The source after `count` bytes, of which `rest` is what is left. -/
def advance (s : Source) (count : Nat) (rest : List UInt8) : Source :=
  { s with unread := rest, position := s.position + count }

theorem next_cons {s : Source} {b : UInt8} {rest : List UInt8} (h : s.unread = b :: rest) :
    s.next = .ok (some b) (s.advance 1 rest) := by
  rw [next, h]
  rfl

theorem next_nil {s : Source} (hm : s.InMemory) (h : s.unread = []) :
    s.next = .ok none s := by
  obtain ⟨unread, feed, capacity, position⟩ := s
  obtain rfl : feed = ⟨[], []⟩ := hm
  obtain rfl : unread = [] := h
  simp [next, Feed.request]

theorem nextBytes_append {bytes rest : List UInt8} {s : Source}
    (h : s.unread = bytes ++ rest) :
    s.nextBytes bytes.length = .ok bytes (s.advance bytes.length rest) := by
  induction bytes generalizing s with
  | nil =>
    obtain ⟨unread, feed, capacity, position⟩ := s
    obtain rfl : unread = rest := h
    rfl
  | cons b bytes ih =>
    rw [List.cons_append] at h
    rw [List.length_cons, nextBytes, next_cons h]
    dsimp only
    rw [ih (s := s.advance 1 (bytes ++ rest)) rfl]
    simp only [advance, Nat.add_assoc, Nat.add_comm 1]

theorem nextBytes_nil {s : Source} (hm : s.InMemory) (h : s.unread = []) {n : Nat} (hn : 0 < n) :
    s.nextBytes n = .ok [] s := by
  obtain ⟨n, rfl⟩ : ∃ k, n = k + 1 := ⟨n - 1, by omega⟩
  rw [nextBytes, next_nil hm h]

theorem skip_append {bytes rest : List UInt8} {s : Source} (h : s.unread = bytes ++ rest) :
    s.skip bytes.length = .ok () (s.advance bytes.length rest) := by
  induction bytes generalizing s with
  | nil =>
    obtain ⟨unread, feed, capacity, position⟩ := s
    obtain rfl : unread = rest := h
    rfl
  | cons b bytes ih =>
    rw [List.cons_append] at h
    rw [List.length_cons, skip, next_cons h]
    dsimp only
    rw [ih (s := s.advance 1 (bytes ++ rest)) rfl]
    simp only [advance, Nat.add_assoc, Nat.add_comm 1]

/-- A text in memory shows as many of its bytes as it has. -/
theorem peek_ofBytes (n : Nat) (bytes : List UInt8) :
    (ofBytes bytes).peek n = .ok (bytes.take n) (ofBytes bytes) := by
  have hle : min n bytes.length ≤ (ofBytes bytes).unread.length := Nat.min_le_right ..
  have hfill : fill (min n bytes.length) [] (ofBytes bytes) = .ok () (ofBytes bytes) := by
    rw [fill, if_pos hle]
  have htake : bytes.take (min n bytes.length) = bytes.take n := by
    rw [← List.take_take, List.take_length]
  unfold peek
  simp only [show (ofBytes bytes).capacity = bytes.length from rfl,
    show (ofBytes bytes).feed.script = [] from rfl, hfill, ← htake]
  rfl

end Source

/-! ### Code units -/

/-- The bytes group into these units, none of which is cut short. -/
inductive Encoding.Groups (e : Encoding) : List UInt8 → List Nat → Prop
  | nil : Groups e [] []
  | cons {group bytes : List UInt8} {units : List Nat} (hg : group.length = e.unitWidth)
      (h : Groups e bytes units) : Groups e (group ++ bytes) (e.assemble group :: units)

namespace Encoding

theorem Groups.length {e : Encoding} {bytes : List UInt8} {units : List Nat}
    (h : e.Groups bytes units) : bytes.length = e.unitWidth * units.length := by
  induction h with
  | nil => rfl
  | cons hg _ ih => rw [List.length_append, hg, ih, List.length_cons, Nat.mul_succ, Nat.add_comm]

theorem assemble_singleton (e : Encoding) (b : UInt8) : e.assemble [b] = b.toNat := by
  have hb : (0 * 256 + b.toNat) % 0x100000000 = b.toNat := by
    have := b.toNat_lt
    omega
  rw [assemble, bigEndian]
  split <;> exact hb

theorem unitWidth_eq_one {e : Encoding} (he : e.isSingleByte) : e.unitWidth = 1 := by
  simpa [isSingleByte] using he

/-- In an encoding of one byte a unit, every byte is its own unit. -/
theorem groups_singleByte {e : Encoding} (he : e.isSingleByte) (bytes : List UInt8) :
    e.Groups bytes (bytes.map UInt8.toNat) := by
  induction bytes with
  | nil => exact .nil
  | cons b bytes ih =>
    rw [List.map_cons, ← e.assemble_singleton b]
    have hb : [b].length = e.unitWidth := (unitWidth_eq_one he).symm
    exact .cons hb ih

end Encoding

namespace Units

/-- What is true of units and the list of those still to come, if asking for one
takes the first off and it can be put back. -/
structure Tracks (e : Encoding) (P : Units → List Nat → Prop) : Prop where
  encoding {u : Units} {units : List Nat} : P u units → u.encoding = e
  next_nil {u : Units} : P u [] → ∃ u', u.next = .ok none u' ∧ P u' []
  next {u : Units} {unit : Nat} {units : List Nat} : P u (unit :: units) →
    ∃ u', u.next = .ok (some unit) u' ∧ P u' units ∧ P (u'.unread unit) (unit :: units)

namespace Tracks

variable {e : Encoding} {P : Units → List Nat → Prop} {u : Units} {units rest : List Nat} {c : Char}

theorem finish (hP : Tracks e P) (h : P u units) {v : Unfinished}
    (hf : Decode.finish v units = (c, rest)) : ∃ u', u.finish v = .ok c u' ∧ P u' rest := by
  -- On the units to come: each either goes on with the character or ends it.
  induction units generalizing u v with
  | nil =>
    obtain ⟨rfl, rfl⟩ : replacement = c ∧ [] = rest := Prod.mk.inj hf
    obtain ⟨u', hnext, h'⟩ := hP.next_nil h
    refine ⟨u', ?_, h'⟩
    rw [Units.finish, hnext]
  | cons unit units ih =>
    obtain ⟨u', hnext, h', hback⟩ := hP.next h
    rw [Decode.finish] at hf
    rw [Units.finish, hnext]
    dsimp only
    split
    · rename_i hfeed
      rw [hfeed] at hf
      obtain ⟨rfl, rfl⟩ := Prod.mk.inj hf
      -- A unit that does not go on with it is put back.
      exact ⟨_, rfl, hback⟩
    · rename_i d hfeed
      rw [hfeed] at hf
      obtain ⟨rfl, rfl⟩ := Prod.mk.inj hf
      exact ⟨u', rfl, h'⟩
    · rename_i v' hfeed
      rw [hfeed] at hf
      obtain ⟨u'', hfinish, h''⟩ := ih h' hf
      exact ⟨u'', hfinish, h''⟩

theorem nextChar_nil (hP : Tracks e P) (h : P u []) : ∃ u', u.nextChar = .ok none u' ∧ P u' [] := by
  obtain ⟨u', hnext, h'⟩ := hP.next_nil h
  refine ⟨u', ?_, h'⟩
  rw [Units.nextChar, hnext]

/-- The next character is the first of the units still to come. -/
theorem nextChar (hP : Tracks e P) (h : P u units) (hf : Decode.first e units = some (c, rest)) :
    ∃ u', u.nextChar = .ok (some c) u' ∧ P u' rest := by
  cases units with
  | nil => simp at hf
  | cons unit units =>
    obtain ⟨u', hnext, h', -⟩ := hP.next h
    rw [Decode.first] at hf
    rw [Units.nextChar, hnext]
    dsimp only
    rw [hP.encoding h']
    cases hs : Decode.start e unit with
    | char d =>
      rw [hs] at hf
      obtain ⟨rfl, rfl⟩ := Prod.mk.inj (Option.some.inj hf)
      exact ⟨u', rfl, h'⟩
    | more v =>
      rw [hs] at hf
      obtain ⟨u'', hfinish, h''⟩ := hP.finish h' (Option.some.inj hf)
      dsimp only
      rw [hfinish]
      exact ⟨u'', rfl, h''⟩

end Tracks

/-! ### Units in memory -/

/-- The units still to come from memory, the last of which ends at offset
`stop`. -/
structure Holds (u : Units) (stop : Nat) (units : List Nat) : Prop where
  memory : u.source.InMemory
  groups : ∃ rest, u.encoding.Groups u.source.unread rest ∧ units = u.pushed.toList ++ rest
  stop_eq : u.source.position + u.source.unread.length = stop
  /-- A unit that was put back had been read. -/
  pushed_le : u.pushed.isSome → u.encoding.unitWidth ≤ u.source.position

namespace Holds

variable {u : Units} {stop unit : Nat} {units : List Nat}

/-- The position is told by what is still to come. -/
theorem position (h : u.Holds stop units) :
    u.position + u.encoding.unitWidth * units.length = stop := by
  obtain ⟨hm, ⟨rest, hg, rfl⟩, hstop, hp⟩ := h
  have hlen := hg.length
  rw [Units.position]
  cases hpu : u.pushed with
  | none =>
    simp only [Option.isSome_none, Bool.false_eq_true, if_false, Option.toList_none,
      List.nil_append]
    omega
  | some x =>
    have := hp (by rw [hpu]; rfl)
    simp only [Option.isSome_some, if_true, Option.toList_some, List.length_append,
      List.length_singleton, Nat.mul_add, Nat.mul_one]
    omega

theorem next_nil (h : u.Holds stop []) : u.next = .ok none u := by
  obtain ⟨hm, ⟨rest, hg, hnil⟩, hstop, hp⟩ := h
  obtain ⟨hpu, rfl⟩ := List.append_eq_nil_iff.mp hnil.symm
  obtain ⟨source, e, pushed⟩ := u
  obtain rfl : pushed = none := by simpa using hpu
  have hunread : source.unread = [] := by
    cases hu : source.unread with
    | nil => rfl
    | cons b bytes =>
      have := hg.length
      simp [hu] at this
  rw [next]
  simp only [Source.nextBytes_nil hm hunread e.unitWidth_pos]

theorem next (h : u.Holds stop (unit :: units)) :
    ∃ u', u.next = .ok (some unit) u' ∧ u'.Holds stop units ∧ u'.encoding = u.encoding ∧
      u'.pushed = none := by
  obtain ⟨source, e, pushed⟩ := u
  obtain ⟨hm, ⟨rest, hg, hcons⟩, hstop, hp⟩ := h
  cases pushed with
  | some x =>
    simp only [Option.toList_some, List.cons_append, List.nil_append, List.cons.injEq] at hcons
    obtain ⟨rfl, rfl⟩ := hcons
    exact ⟨_, rfl, ⟨hm, ⟨units, hg, rfl⟩, hstop, by simp⟩, rfl, rfl⟩
  | none =>
    obtain rfl : rest = unit :: units := by simpa using hcons.symm
    dsimp only at hg hm hstop
    generalize hu : source.unread = unread at hg
    cases hg with
    | @cons group bytes _ hlen hg =>
      -- The bytes to come group into units, of which the source takes the first group.
      have hnext : source.nextBytes e.unitWidth = .ok group (source.advance group.length bytes) :=
        hlen ▸ Source.nextBytes_append hu
      have hne : group ≠ [] := by
        rintro rfl
        exact absurd hlen.symm (Nat.ne_of_gt e.unitWidth_pos)
      refine ⟨⟨source.advance group.length bytes, e, none⟩, ?_, ⟨hm, ⟨units, hg, rfl⟩, ?_, by simp⟩,
        rfl, rfl⟩
      · obtain ⟨b, group, rfl⟩ := List.exists_cons_of_ne_nil hne
        rw [Units.next]
        simp only [hnext, hlen, Nat.lt_irrefl, if_false]
      · rw [hu, List.length_append] at hstop
        simp only [Source.advance]
        omega

/-- A unit that has been read can be put back. -/
theorem unread (h : u.Holds stop units) (hp : u.pushed = none)
    (hle : u.encoding.unitWidth ≤ u.source.position) (unit : Nat) :
    (u.unread unit).Holds stop (unit :: units) := by
  obtain ⟨hm, ⟨rest, hg, rfl⟩, hstop, -⟩ := h
  refine ⟨hm, ⟨rest, hg, ?_⟩, hstop, fun _ => hle⟩
  rw [hp]
  rfl

/-- There is room to put a unit back after it has been read. -/
theorem unitWidth_le_position {u' : Units} (h : u.Holds stop (unit :: units))
    (h' : u'.Holds stop units) (he : u'.encoding = u.encoding) (hp : u'.pushed = none) :
    u'.encoding.unitWidth ≤ u'.source.position := by
  have h1 := h.position
  have h2 := h'.position
  rw [Units.position, hp] at h2
  simp only [Option.isSome_none, Bool.false_eq_true, if_false] at h2
  rw [he] at h2 ⊢
  -- What has been read is one unit more than before.
  rw [List.length_cons, Nat.mul_succ] at h1
  omega

theorem tracks (e : Encoding) (stop : Nat) :
    Tracks e fun u units => u.encoding = e ∧ u.Holds stop units where
  encoding h := h.1
  next_nil := by
    rintro u ⟨he, h⟩
    exact ⟨u, h.next_nil, he, h⟩
  next := by
    rintro u unit units ⟨he, h⟩
    obtain ⟨u', hnext, h', he', hp⟩ := h.next
    have hback := h'.unread hp (h.unitWidth_le_position h' he' hp) unit
    exact ⟨u', hnext, ⟨he'.trans he, h'⟩, he'.trans he, hback⟩

theorem nextChar_nil (h : u.Holds stop []) : u.nextChar = .ok none u := by
  rw [Units.nextChar, h.next_nil]

/-- The next character is the first of the units still to come. -/
theorem nextChar (h : u.Holds stop units) {c : Char} {rest : List Nat}
    (hf : Decode.first u.encoding units = some (c, rest)) :
    ∃ u', u.nextChar = .ok (some c) u' ∧ u'.Holds stop rest ∧ u'.encoding = u.encoding := by
  obtain ⟨u', hnext, he, h'⟩ := (tracks u.encoding stop).nextChar ⟨rfl, h⟩ hf
  exact ⟨u', hnext, h', he⟩

end Holds

end Units

end Tabular
