/-
Sources that are asked for bytes in any order.

* `Call`, `Source.call`, `Source.calls` — what can be asked of a source, and
  what it is after that, whether or not it was answered;
* `Source.Passes` — a source after some bytes have been taken from it;
* `Source.passes_call`, `Source.passes_calls` — no call does anything else;
* `Source.Window` — what is unread and what is to come are the input from the
  position on;
* `Feed.Brings`, `Source.Window.peek_eq_ok_iff` — as many bytes as are wanted
  can be seen ahead just if every read brings one, until the input ends.

Design notes: `Passes` names the bytes that have been taken, so calls compose
by appending them, and the position is their number.
-/
import Tabular.Proofs.Input.Steady
import Tabular.Proofs.Read.Alike

namespace Tabular

/-- The attempt with another answer. -/
def Attempt.map {σ α β : Type} (f : α → β) : Attempt σ α → Attempt σ β
  | .ok a s => .ok (f a) s
  | .error e s => .error e s

theorem Attempt.state_map {σ α β : Type} (f : α → β) (x : Attempt σ α) :
    Attempt.state (Attempt.map f x) = Attempt.state x := by
  cases x <;> rfl

theorem Attempt.map_eq_error {σ α β : Type} {f : α → β} {x : Attempt σ α} {e : Error} {s : σ}
    (h : Attempt.map f x = .error e s) : x = .error e s := by
  cases x with
  | ok a s => cases h
  | error e s =>
    obtain ⟨rfl, rfl⟩ := EStateM.Result.error.inj h
    rfl

/-- Answers may be changed alike. -/
theorem Attempt.Alike.map {σ τ α β : Type} {R : σ → τ → Prop} {x : Attempt σ α} {y : Attempt τ α}
    (h : Alike R x y) (f : α → β) : Alike R (Attempt.map f x) (Attempt.map f y) := by
  cases h with
  | ok h => exact .ok h
  | error h => exact .error h

/-- Attempts that are alike leave related states. -/
theorem Attempt.Alike.state {σ τ α : Type} {R : σ → τ → Prop} {x : Attempt σ α} {y : Attempt τ α}
    (h : Alike R x y) : R (Attempt.state x) (Attempt.state y) := by
  cases h with
  | ok h => exact h
  | error h => exact h

/-- What is asked of a source. -/
inductive Call
  | next
  | skip (n : Nat)
  | peek (n : Nat)

/-- The most bytes that a call takes. -/
def Call.most : Call → Nat
  | next => 1
  | skip n => n
  | peek _ => 0

/-- What a source answers. -/
inductive Answer
  | byte (b : Option UInt8)
  | skipped
  | head (bytes : List UInt8)

/-- What comes of a call, by what comes of each operation. -/
def Call.made {σ : Type} (next : Attempt σ (Option UInt8)) (skip : Nat → Attempt σ Unit)
    (peek : Nat → Attempt σ (List UInt8)) : Call → Attempt σ Answer
  | .next => Attempt.map .byte next
  | .skip n => Attempt.map (fun _ => .skipped) (skip n)
  | .peek n => Attempt.map .head (peek n)

/-- What is left after one call after another, whether or not they are
answered. -/
def Call.allMade {σ : Type} (call : σ → Call → Attempt σ Answer) (s : σ) (calls : List Call) : σ :=
  calls.foldl (fun s c => Attempt.state (call s c)) s

namespace Feed

variable {room : Nat} {bytes got : List UInt8} {script : List Delivery} {feed : Feed}

/-- A failure takes nothing from what is to come. -/
theorem request_error {e : Error} (h : request room bytes script = .error e feed) :
    feed.bytes = bytes := by
  induction script with
  | nil => cases h
  | cons d script ih =>
    cases d with
    | upTo count => cases h
    | interrupted => exact ih h
    | failed reason =>
      obtain ⟨-, rfl⟩ := EStateM.Result.error.inj h
      rfl

/-- Every read that is made for `wanted` of the `left` bytes to come brings one
at least, until the input ends. -/
def Brings (wanted left : Nat) : List Delivery → Prop
  | [] => True
  | .upTo count :: script =>
    wanted = 0 ∨ left = 0 ∨
      0 < count ∧ Brings (wanted - min count left) (left - min count left) script
  | .interrupted :: _ | .failed _ :: _ => wanted = 0

namespace Brings

variable {wanted left count : Nat}

theorem of_eq_zero (h : wanted = 0) (script : List Delivery) : Brings wanted left script := by
  cases script with
  | nil => trivial
  | cons d script =>
    cases d with
    | upTo count => exact .inl h
    | interrupted => exact h
    | failed reason => exact h

theorem of_upTo (h : ∀ d ∈ script, ∃ count, d = .upTo (count + 1)) (wanted left : Nat) :
    Brings wanted left script := by
  induction script generalizing wanted left with
  | nil => trivial
  | cons d script ih =>
    obtain ⟨count, rfl⟩ := h d (List.mem_cons_self ..)
    refine .inr (.inr ⟨Nat.succ_pos count, ih (fun d hd => ?_) _ _⟩)
    exact h d (List.mem_cons_of_mem _ hd)

/-- A read for which there is room for `room` bytes only. -/
theorem cons_iff (hwanted : wanted ≠ 0) (hroom : wanted ≤ room) (hleft : left ≠ 0)
    (hcount : 0 < count) :
    Brings wanted left (.upTo count :: script) ↔
      Brings (wanted - min (min count room) left) (left - min (min count room) left) script := by
  have hcons : Brings wanted left (.upTo count :: script) ↔
      Brings (wanted - min count left) (left - min count left) script := by
    rw [Brings]
    simp only [hwanted, hleft, hcount, true_and, false_or]
  rw [hcons]
  rcases Nat.le_total (min count left) room with hle | hge
  · have hmin : min (min count room) left = min count left := by omega
    rw [hmin]
  · -- Either way all that is wanted comes.
    have hall : wanted - min count left = 0 := by omega
    have hall' : wanted - min (min count room) left = 0 := by omega
    exact ⟨fun _ => .of_eq_zero hall' script, fun _ => .of_eq_zero hall script⟩

/-- A read that brings nothing, though there is room for what is wanted, does
so rightly if the input has ended. -/
theorem empty_iff (hwanted : wanted ≠ 0) (hroom : wanted ≤ room)
    (hempty : min count room = 0 ∨ left = 0) :
    Brings wanted left (.upTo count :: script) ↔ left = 0 := by
  rw [Brings]
  constructor
  · rintro (h | h | ⟨h, -⟩)
    · exact absurd h hwanted
    · exact h
    · exact hempty.resolve_left (by omega)
  · exact fun h => .inr (.inl h)

end Brings

end Feed

namespace Source

variable {s s' s'' : Source} {taken taken' bytes head : List UInt8} {n : Nat}

/-- What comes of a call. -/
def call (s : Source) : Call → Attempt Source Answer := Call.made s.next (skip · s) (peek · s)

/-- The source after some calls. -/
def calls (s : Source) (calls : List Call) : Source := Call.allMade call s calls

/-! ### What has been taken -/

/-- The source after those bytes have been taken from it. -/
structure Passes (s : Source) (taken : List UInt8) (s' : Source) : Prop where
  rest : s.rest = taken ++ s'.rest
  position : s'.position = s.position + taken.length
  capacity : s'.capacity = s.capacity
  /-- The buffer never holds more than it has room for. -/
  fits : s.unread.length ≤ s.capacity → s'.unread.length ≤ s'.capacity

theorem Passes.refl (s : Source) : s.Passes [] s := ⟨rfl, rfl, rfl, id⟩

theorem Passes.trans (h : s.Passes taken s') (h' : s'.Passes taken' s'') :
    s.Passes (taken ++ taken') s'' where
  rest := by rw [h.rest, h'.rest, List.append_assoc]
  position := by rw [h'.position, h.position, List.length_append, Nat.add_assoc]
  capacity := h'.capacity.trans h.capacity
  fits hfits := h'.fits (h.fits hfits)

theorem passes_of_next {b : Option UInt8} (h : s.next = .ok b s') : s.Passes b.toList s' := by
  rw [next] at h
  cases hu : s.unread with
  | cons c unread =>
    rw [hu] at h
    obtain ⟨rfl, rfl⟩ := EStateM.Result.ok.inj h
    refine ⟨by rw [rest, hu]; rfl, rfl, rfl, fun hfits => ?_⟩
    rw [hu, List.length_cons] at hfits
    exact Nat.le_of_succ_le hfits
  | nil =>
    rw [hu] at h
    dsimp only at h
    cases hr : Feed.request s.capacity s.feed.bytes s.feed.script with
    | error e feed => simp [hr] at h
    | ok got feed =>
      have hgot : got ++ feed.bytes = s.feed.bytes := Feed.request_ok hr
      have hlength := Feed.length_le_of_request hr
      rw [hr] at h
      cases got with
      | nil =>
        obtain ⟨rfl, rfl⟩ := EStateM.Result.ok.inj h
        exact ⟨by rw [rest, rest, hu, ← hgot]; rfl, rfl, rfl, fun _ => Nat.zero_le _⟩
      | cons c got =>
        obtain ⟨rfl, rfl⟩ := EStateM.Result.ok.inj h
        exact ⟨by rw [rest, hu, ← hgot]; rfl, rfl, rfl, fun _ => Nat.le_of_succ_le hlength⟩

theorem passes_of_next_error {e : Error} (h : s.next = .error e s') : s.Passes [] s' := by
  rw [next] at h
  cases hu : s.unread with
  | cons c unread =>
    rw [hu] at h
    cases h
  | nil =>
    rw [hu] at h
    dsimp only at h
    cases hr : Feed.request s.capacity s.feed.bytes s.feed.script with
    | ok got feed => cases got <;> simp [hr] at h
    | error e feed =>
      rw [hr] at h
      obtain ⟨-, rfl⟩ := EStateM.Result.error.inj h
      exact ⟨by rw [rest, rest, hu, Feed.request_error hr]; rfl, rfl, rfl, fun _ => Nat.zero_le _⟩

/-- The position after a skip, which may come to an end before its time. -/
theorem passes_skip (n : Nat) (s : Source) :
    ∃ taken, s.Passes taken (Attempt.state (s.skip n)) ∧ taken.length ≤ n ∧
      ∀ e s', s.skip n = .error e s' → taken.length < n := by
  induction n generalizing s with
  | zero => exact ⟨[], .refl s, Nat.le_refl 0, fun e s' h => by cases h⟩
  | succ n ih =>
    rw [skip]
    cases hn : s.next with
    | error e s' =>
      exact ⟨[], passes_of_next_error hn, Nat.zero_le _, fun _ _ _ => Nat.succ_pos n⟩
    | ok b s' =>
      have hb := passes_of_next hn
      cases b with
      | none => exact ⟨[], hb, Nat.zero_le _, fun e s' h => by cases h⟩
      | some b =>
        obtain ⟨taken, htaken, hle, hlt⟩ := ih s'
        exact ⟨b :: taken, hb.trans htaken, Nat.succ_le_succ hle,
          fun e s' h => Nat.succ_lt_succ (hlt e s' h)⟩

theorem passes_receive {count : Nat} (hcount : count ≤ s.capacity - s.unread.length)
    (script : List Delivery) : s.Passes [] (s.receive count script) := by
  refine ⟨(s.rest_receive count script).symm, rfl, rfl, fun hfits => ?_⟩
  have hlength : (s.feed.bytes.take count).length ≤ count := List.length_take_le ..
  show (s.unread ++ s.feed.bytes.take count).length ≤ s.capacity
  rw [List.length_append]
  omega

theorem passes_fill (n : Nat) (script : List Delivery) (s : Source) :
    s.Passes [] (Attempt.state (fill n script s)) := by
  induction script generalizing s with
  | nil =>
    rw [fill]
    split
    · exact .refl s
    · exact passes_receive (Nat.le_refl _) _
  | cons d script ih =>
    by_cases hle : n ≤ s.unread.length
    · rw [fill_of_le hle]
      exact .refl s
    · cases d with
      | interrupted | failed =>
        rw [fill, if_neg hle]
        exact passes_receive (Nat.zero_le _) _
      | upTo count =>
        rw [fill, if_neg hle]
        dsimp only
        split
        · exact passes_receive (Nat.zero_le _) _
        · exact (passes_receive (Nat.min_le_right ..) script).trans (ih _)

/-- A look ahead takes nothing. -/
theorem passes_peek (n : Nat) (s : Source) : s.Passes [] (Attempt.state (s.peek n)) := by
  have hfill := passes_fill (min n s.capacity) s.feed.script s
  rw [peek]
  cases hf : fill (min n s.capacity) s.feed.script s with
  | error e s' => rwa [hf] at hfill
  | ok a s' => rwa [hf] at hfill

/-- What is seen ahead is what comes next. -/
theorem prefix_of_peek (h : s.peek n = .ok head s') : head <+: s.rest ∧ head.length ≤ n := by
  have hpeek := passes_peek n s
  rw [h] at hpeek
  have hrest : s.rest = s'.rest := hpeek.rest
  rw [peek] at h
  cases hf : fill (min n s.capacity) s.feed.script s with
  | error e s' => simp [hf] at h
  | ok a t =>
    rw [hf] at h
    obtain ⟨rfl, rfl⟩ := EStateM.Result.ok.inj h
    rw [hrest, rest]
    refine ⟨(List.take_prefix ..).trans (List.prefix_append ..), ?_⟩
    exact Nat.le_trans (List.length_take_le ..) (Nat.min_le_left ..)

/-! ### Whatever is asked -/

theorem passes_call (s : Source) (call : Call) :
    ∃ taken, s.Passes taken (Attempt.state (s.call call)) ∧ taken.length ≤ call.most := by
  cases call with
  | next =>
    rw [Source.call, Call.made, Attempt.state_map]
    cases hn : s.next with
    | error e s' => exact ⟨[], passes_of_next_error hn, Nat.zero_le _⟩
    | ok b s' => exact ⟨b.toList, passes_of_next hn, Option.length_toList_le⟩
  | skip n =>
    rw [Source.call, Call.made, Attempt.state_map]
    obtain ⟨taken, htaken, hle, -⟩ := passes_skip n s
    exact ⟨taken, htaken, hle⟩
  | peek n =>
    rw [Source.call, Call.made, Attempt.state_map]
    exact ⟨[], passes_peek n s, Nat.le_refl 0⟩

theorem passes_calls (s : Source) (calls : List Call) : ∃ taken, s.Passes taken (s.calls calls) := by
  induction calls generalizing s with
  | nil => exact ⟨[], .refl s⟩
  | cons call calls ih =>
    obtain ⟨taken, htaken, -⟩ := s.passes_call call
    obtain ⟨taken', htaken'⟩ := ih (Attempt.state (s.call call))
    exact ⟨taken ++ taken', htaken.trans htaken'⟩

/-- What is unread and what is to come are the input from the position on, and
no more is unread than there is room for. -/
structure Window (s : Source) (bytes : List UInt8) (room : Nat) : Prop where
  rest : s.unread ++ s.feed.bytes = bytes.drop s.position
  position_le : s.position ≤ bytes.length
  capacity : s.capacity = room
  unread_le : s.unread.length ≤ room

theorem window_ofFeed (feed : Feed) (bufferSize : Nat) :
    (ofFeed feed bufferSize).Window feed.bytes (max bufferSize 4) :=
  ⟨rfl, Nat.zero_le _, rfl, Nat.zero_le _⟩

namespace Window

variable {room : Nat}

theorem rest_eq (h : s.Window bytes room) : s.rest = bytes.drop s.position := h.rest

/-- It stays so, whatever is taken. -/
theorem passes (h : s.Window bytes room) (ht : s.Passes taken s') : s'.Window bytes room := by
  have hrest := h.rest_eq
  have hposition := ht.position
  have hlength := congrArg List.length hrest
  rw [ht.rest] at hrest hlength
  rw [List.length_append, List.length_drop] at hlength
  have hle := h.position_le
  refine ⟨?_, by omega, ht.capacity.trans h.capacity, ?_⟩
  · show s'.rest = _
    rw [hposition, ← List.drop_drop, ← hrest, List.drop_left]
  · have hfits := ht.fits (by rw [h.capacity]; exact h.unread_le)
    rwa [ht.capacity, h.capacity] at hfits

theorem calls (h : s.Window bytes room) (calls : List Call) : (s.calls calls).Window bytes room := by
  obtain ⟨taken, htaken⟩ := s.passes_calls calls
  exact h.passes htaken

end Window

/-- How a source of those bytes answers. -/
structure Answers (s : Source) (bytes : List UInt8) (room : Nat) : Prop where
  /-- A byte that is read is the one at the position, which moves past it. -/
  next_some : ∀ {b s'}, s.next = .ok (some b) s' →
    bytes[s.position]? = some b ∧ s'.position = s.position + 1
  next_none : ∀ {s'}, s.next = .ok none s' → s'.position = s.position
  skip : ∀ {n s'}, s.skip n = .ok () s' →
    s.position ≤ s'.position ∧ s'.position ≤ s.position + n
  /-- What is seen ahead comes next, and stays where it is. -/
  peek : ∀ {n head s'}, s.peek n = .ok head s' →
    head <+: bytes.drop s.position ∧ head.length ≤ n ∧ s'.position = s.position
  /-- A call that fails may have skipped some bytes, but not as many as it was
  to; all others are there for the calls that come after it. -/
  fails : ∀ {call e s'}, s.call call = .error e s' →
    s'.Window bytes room ∧ s.position ≤ s'.position ∧
      (s'.position = s.position ∨ ∃ n, call = .skip n ∧ s'.position < s.position + n)

theorem Window.answers {room : Nat} (h : s.Window bytes room) : s.Answers bytes room where
  next_some {b s'} hn := by
    have hb := passes_of_next hn
    have hrest := h.rest_eq
    rw [hb.rest] at hrest
    refine ⟨?_, hb.position⟩
    rw [← Nat.add_zero s.position, ← List.getElem?_drop, ← hrest]
    rfl
  next_none hn := (passes_of_next hn).position
  skip {n s'} hs := by
    obtain ⟨taken, htaken, hle, -⟩ := passes_skip n s
    rw [hs] at htaken
    have hposition : s'.position = _ := htaken.position
    omega
  peek {n head s'} hp := by
    have htaken := passes_peek n s
    rw [hp] at htaken
    rw [← h.rest_eq]
    obtain ⟨hhead, hle⟩ := prefix_of_peek hp
    exact ⟨hhead, hle, htaken.position⟩
  fails {call e s'} hc := by
    cases call with
    | next =>
      have htaken := passes_of_next_error (Attempt.map_eq_error hc)
      have hposition : s'.position = s.position := htaken.position
      exact ⟨h.passes htaken, Nat.le_of_eq hposition.symm, .inl hposition⟩
    | skip n =>
      have hs : s.skip n = .error e s' := Attempt.map_eq_error hc
      obtain ⟨taken, htaken, -, hlt⟩ := passes_skip n s
      have hfew := hlt e s' hs
      rw [hs] at htaken
      have hposition : s'.position = s.position + taken.length := htaken.position
      exact ⟨h.passes htaken, by omega, .inr ⟨n, rfl, by omega⟩⟩
    | peek n =>
      have hp : s.peek n = .error e s' := Attempt.map_eq_error hc
      have htaken := passes_peek n s
      rw [hp] at htaken
      have hposition : s'.position = s.position := htaken.position
      exact ⟨h.passes htaken, Nat.le_of_eq hposition.symm, .inl hposition⟩

/-! ### As many bytes as are wanted -/

/-- What is unread is all there is to see only once nothing is to come. -/
theorem take_unread_eq_iff (h : n - s.unread.length ≠ 0) :
    s.unread.take n = s.rest.take n ↔ s.feed.bytes = [] := by
  rw [rest, List.take_append, List.self_eq_append_right, List.take_eq_nil_iff]
  exact or_iff_right h

/-- What is wanted and what is left both fall by what a read brings. -/
theorem brings_receive_iff {count : Nat} {script : List Delivery} (hn : n ≤ s.capacity)
    (hwanted : n - s.unread.length ≠ 0)
    (hsome : s.feed.bytes.take (min count (s.capacity - s.unread.length)) ≠ []) :
    let t := s.receive (min count (s.capacity - s.unread.length)) script
    Feed.Brings (n - s.unread.length) s.feed.bytes.length (.upTo count :: script) ↔
      Feed.Brings (n - t.unread.length) t.feed.bytes.length script := by
  intro t
  obtain ⟨hcount, hbytes⟩ := not_or.mp (mt List.take_eq_nil_iff.mpr hsome)
  have hleft : s.feed.bytes.length ≠ 0 := mt List.length_eq_zero_iff.mp hbytes
  have hunread : t.unread.length = s.unread.length +
      min (min count (s.capacity - s.unread.length)) s.feed.bytes.length := by
    rw [← List.length_take, ← List.length_append]
    rfl
  have hremains : t.feed.bytes.length = s.feed.bytes.length -
      min (min count (s.capacity - s.unread.length)) s.feed.bytes.length := by
    rw [show t.feed.bytes = s.feed.bytes.drop _ from rfl, List.length_drop]
    omega
  rw [hunread, hremains, ← Nat.sub_sub]
  exact Feed.Brings.cons_iff hwanted (by omega) hleft (by omega)

/-- Enough comes to be in the buffer just if every read brings a byte. -/
theorem fill_eq_ok_iff {script : List Delivery} (hn : n ≤ s.capacity) :
    (∃ s', fill n script s = .ok () s' ∧ s'.unread.take n = s.rest.take n) ↔
      Feed.Brings (n - s.unread.length) s.feed.bytes.length script := by
  induction script generalizing s with
  | nil =>
    rw [fill]
    split
    · rename_i hle
      exact ⟨fun _ => trivial, fun _ => ⟨s, rfl, (List.take_append_of_le_length hle).symm⟩⟩
    · exact ⟨fun _ => trivial, fun _ => ⟨_, rfl, take_unread_receive (by omega) []⟩⟩
  | cons d script ih =>
    by_cases hle : n ≤ s.unread.length
    · -- Enough is there already, so that nothing is read.
      rw [fill_of_le hle]
      exact ⟨fun _ => .of_eq_zero (Nat.sub_eq_zero_of_le hle) _,
        fun _ => ⟨s, rfl, (List.take_append_of_le_length hle).symm⟩⟩
    · have hwanted : n - s.unread.length ≠ 0 := by omega
      cases d with
      | interrupted | failed =>
        rw [fill, if_neg hle]
        refine ⟨?_, fun hbrings => absurd hbrings hwanted⟩
        rintro ⟨s', hfill, -⟩
        cases hfill
      | upTo count =>
        rw [fill, if_neg hle]
        dsimp only
        split
        · rename_i hempty
          have hnone := List.take_eq_nil_iff.mp (List.isEmpty_iff.mp hempty)
          rw [← List.length_eq_zero_iff] at hnone
          rw [Feed.Brings.empty_iff hwanted (Nat.sub_le_sub_right hn _) hnone,
            List.length_eq_zero_iff, ← take_unread_eq_iff hwanted]
          have hunread : (s.receive 0 script).unread = s.unread := List.append_nil _
          constructor
          · rintro ⟨s', hfill, hshown⟩
            obtain ⟨-, rfl⟩ := EStateM.Result.ok.inj hfill
            rwa [hunread] at hshown
          · exact fun hshown => ⟨_, rfl, by rwa [hunread]⟩
        · rename_i hsome
          rw [List.isEmpty_iff] at hsome
          have hnext := @ih (s.receive (min count (s.capacity - s.unread.length)) script) hn
          rw [s.rest_receive] at hnext
          exact hnext.trans (brings_receive_iff hn hwanted hsome).symm

theorem Window.peek_eq_ok_iff {room : Nat} (h : s.Window bytes room) (hn : n ≤ room) :
    (∃ s', s.peek n = .ok ((bytes.drop s.position).take n) s') ↔
      Feed.Brings (n - s.unread.length) s.feed.bytes.length s.feed.script := by
  have hroom : n ≤ s.capacity := h.capacity ▸ hn
  rw [← h.rest_eq, ← fill_eq_ok_iff hroom, peek, Nat.min_eq_left hroom]
  constructor
  · rintro ⟨s', hpeek⟩
    cases hf : fill n s.feed.script s with
    | error e t => simp [hf] at hpeek
    | ok a t =>
      rw [hf] at hpeek
      obtain ⟨hshown, -⟩ := EStateM.Result.ok.inj hpeek
      exact ⟨t, rfl, hshown⟩
  · rintro ⟨s', hfill, hshown⟩
    refine ⟨s', ?_⟩
    rw [hfill, ← hshown]

/-- If no read fails or brings nothing, the next byte comes. -/
theorem Window.next_eq_ok {room : Nat} (h : s.Window bytes room) (hroom : 0 < room)
    (hs : ∀ d ∈ s.feed.script, d.Steady) : ∃ s', s.next = .ok bytes[s.position]? s' := by
  have hyields : s.Yields (bytes.drop s.position) s.position :=
    ⟨⟨hs, .inl (h.capacity.symm ▸ hroom)⟩, h.rest_eq, rfl⟩
  rw [← Nat.add_zero s.position, ← List.getElem?_drop]
  cases hb : bytes.drop s.position with
  | nil =>
    rw [hb] at hyields
    obtain ⟨s', hnext, -⟩ := hyields.next_nil
    exact ⟨s', hnext⟩
  | cons b bytes =>
    rw [hb] at hyields
    obtain ⟨s', hnext, -⟩ := hyields.next
    exact ⟨s', hnext⟩

end Source

end Tabular
