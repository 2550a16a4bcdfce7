/-
Sources whose feeds go on delivering.

* `Source.Steady` — no delivery is empty or fails, and there is room for one;
* `Source.Yields` — such a source, with the bytes still to come and where they
  begin;
* `Yields.next`, `Yields.nextBytes`, `Yields.skip` — they come off the front,
  whatever the sizes of the deliveries;
* `Yields.peek` — and a few of them can be seen ahead;
* `Source.peek_ofFeed` — as many as a byte order mark takes, in a stream.

Design notes: an interruption is passed over by a request, but not by a look
ahead, so `Yields.peek` asks for more than `Steady`.
-/
import Tabular.Proofs.Input.Memory

namespace Tabular

/-- A delivery that does not look like the end of the input, and does not
fail. -/
def Delivery.Steady : Delivery → Prop
  | .upTo count => 0 < count
  | .interrupted => True
  | .failed _ => False

namespace Delivery

variable {d : Delivery}

/-- What does not fail and does not interrupt brings bytes. -/
theorem Steady.upTo (h : d.Steady) (hne : d ≠ .interrupted) : ∃ count, d = .upTo (count + 1) := by
  cases d with
  | upTo count => exact ⟨count - 1, by rw [Nat.sub_add_cancel h]⟩
  | interrupted => exact absurd rfl hne
  | failed reason => exact absurd h id

theorem Steady.of_upTo (h : ∃ count, d = .upTo (count + 1)) : d.Steady := by
  obtain ⟨count, rfl⟩ := h
  exact Nat.succ_pos count

end Delivery

theorem Feed.request_steady {room : Nat} {bytes : List UInt8} {script : List Delivery}
    (hs : ∀ d ∈ script, d.Steady) (hroom : 0 < room ∨ bytes = []) :
    ∃ got feed, request room bytes script = .ok got feed ∧ got ++ feed.bytes = bytes ∧
      (got = [] → bytes = []) ∧ ∀ d ∈ feed.script, d.Steady := by
  induction script with
  | nil =>
    refine ⟨_, _, rfl, List.take_append_drop .., fun hnil => ?_, by simp⟩
    rcases List.take_eq_nil_iff.mp hnil with hzero | hnil
    · exact hroom.resolve_left (by omega)
    · exact hnil
  | cons d script ih =>
    rw [List.forall_mem_cons] at hs
    cases d with
    | upTo count =>
      refine ⟨_, _, rfl, List.take_append_drop .., fun hnil => ?_, hs.2⟩
      have hcount : 0 < count := hs.1
      rcases List.take_eq_nil_iff.mp hnil with hzero | hnil
      · exact hroom.resolve_left (by omega)
      · exact hnil
    | interrupted => exact ih hs.2
    | failed reason => exact absurd hs.1 id

namespace Source

/-- No delivery is empty or fails, and there is room for one. -/
structure Steady (s : Source) : Prop where
  script : ∀ d ∈ s.feed.script, d.Steady
  room : 0 < s.capacity ∨ s.rest = []

/-- The bytes still to come, and the offset at which they begin. -/
structure Yields (s : Source) (bytes : List UInt8) (position : Nat) : Prop where
  steady : s.Steady
  rest : s.rest = bytes
  position : s.position = position

theorem yields_ofBytes (bytes : List UInt8) : (ofBytes bytes).Yields bytes 0 := by
  refine ⟨⟨by simp [ofBytes], ?_⟩, by simp [ofBytes, rest], rfl⟩
  cases bytes with
  | nil => exact .inr rfl
  | cons b bytes => exact .inl (Nat.succ_pos _)

/-- A text in memory of which the bytes up to offset `start` have been read. -/
theorem yields_advance (bytes : List UInt8) (start : Nat) :
    ((ofBytes bytes).advance start (bytes.drop start)).Yields (bytes.drop start) start := by
  have hrest : ((ofBytes bytes).advance start (bytes.drop start)).rest = bytes.drop start :=
    List.append_nil _
  refine ⟨⟨by simp [advance, ofBytes], ?_⟩, hrest, Nat.zero_add start⟩
  rw [hrest]
  cases bytes with
  | nil => exact .inr List.drop_nil
  | cons b bytes => exact .inl (Nat.succ_pos _)

theorem yields_ofFeed {feed : Feed} (hs : ∀ d ∈ feed.script, d.Steady) (bufferSize : Nat) :
    (ofFeed feed bufferSize).Yields feed.bytes 0 := by
  refine ⟨⟨hs, .inl ?_⟩, rfl, rfl⟩
  show 0 < max bufferSize 4
  omega

namespace Yields

variable {s : Source} {b : UInt8} {bytes : List UInt8} {position : Nat}

/-- What a request of a source whose buffer is empty leads to. -/
theorem request (h : s.Yields bytes position) (hu : s.unread = []) :
    ∃ got feed, Feed.request s.capacity s.feed.bytes s.feed.script = .ok got feed ∧
      got ++ feed.bytes = bytes ∧ (got = [] → bytes = []) ∧ ∀ d ∈ feed.script, d.Steady := by
  have hrest : s.feed.bytes = bytes := by simpa [Source.rest, hu] using h.rest
  have hroom : 0 < s.capacity ∨ s.feed.bytes = [] := hrest ▸ h.rest ▸ h.steady.room
  exact hrest ▸ Feed.request_steady h.steady.script hroom

theorem next_nil (h : s.Yields [] position) :
    ∃ s', s.next = .ok none s' ∧ s'.Yields [] position := by
  have hu : s.unread = [] := (List.append_eq_nil_iff.mp h.rest).1
  obtain ⟨got, feed, hreq, happ, -, hscript⟩ := h.request hu
  obtain ⟨rfl, hfeed⟩ := List.append_eq_nil_iff.mp happ
  have hrest : Source.rest { s with feed } = [] := by rw [Source.rest, hu, hfeed, List.append_nil]
  refine ⟨{ s with feed }, ?_, ⟨hscript, .inr hrest⟩, hrest, h.position⟩
  rw [Source.next, hu]
  dsimp only
  rw [hreq]

theorem next (h : s.Yields (b :: bytes) position) :
    ∃ s', s.next = .ok (some b) s' ∧ s'.Yields bytes (position + 1) := by
  have hroom : 0 < s.capacity := h.steady.room.resolve_right (by simp [h.rest])
  rw [Source.next]
  cases hu : s.unread with
  | cons c unread =>
    have hrest := h.rest
    rw [Source.rest, hu, List.cons_append, List.cons.injEq] at hrest
    obtain ⟨rfl, hrest⟩ := hrest
    exact ⟨_, rfl, ⟨h.steady.script, .inl hroom⟩, hrest, congrArg (· + 1) h.position⟩
  | nil =>
    obtain ⟨got, feed, hreq, happ, hnil, hscript⟩ := h.request hu
    cases got with
    | nil => exact absurd (hnil rfl) (List.cons_ne_nil b bytes)
    | cons c unread =>
      rw [List.cons_append, List.cons.injEq] at happ
      obtain ⟨rfl, hrest⟩ := happ
      dsimp only
      rw [hreq]
      exact ⟨_, rfl, ⟨hscript, .inl hroom⟩, hrest, congrArg (· + 1) h.position⟩

theorem nextBytes (h : s.Yields bytes position) (n : Nat) :
    ∃ s', s.nextBytes n = .ok (bytes.take n) s' ∧
      s'.Yields (bytes.drop n) (position + min n bytes.length) := by
  induction n generalizing s bytes position with
  | zero => exact ⟨s, by simp [Source.nextBytes], by simpa using h⟩
  | succ n ih =>
    rw [Source.nextBytes]
    cases bytes with
    | nil =>
      obtain ⟨s', hnext, hs'⟩ := h.next_nil
      rw [hnext]
      exact ⟨s', by simp, by simpa using hs'⟩
    | cons b bytes =>
      obtain ⟨s', hnext, hs'⟩ := h.next
      obtain ⟨s'', hbytes, hs''⟩ := ih hs'
      have hp : position + 1 + min n bytes.length =
          position + min (n + 1) (b :: bytes).length := by
        rw [List.length_cons]
        omega
      rw [hnext]
      dsimp only
      rw [hbytes]
      exact ⟨s'', by simp, by simpa [hp] using hs''⟩

theorem skip (h : s.Yields bytes position) (n : Nat) :
    ∃ s', s.skip n = .ok () s' ∧ s'.Yields (bytes.drop n) (position + min n bytes.length) := by
  induction n generalizing s bytes position with
  | zero => exact ⟨s, rfl, by simpa using h⟩
  | succ n ih =>
    rw [Source.skip]
    cases bytes with
    | nil =>
      obtain ⟨s', hnext, hs'⟩ := h.next_nil
      rw [hnext]
      exact ⟨s', rfl, by simpa using hs'⟩
    | cons b bytes =>
      obtain ⟨s', hnext, hs'⟩ := h.next
      obtain ⟨s'', hskip, hs''⟩ := ih hs'
      have hp : position + 1 + min n bytes.length =
          position + min (n + 1) (b :: bytes).length := by
        rw [List.length_cons]
        omega
      rw [hnext]
      dsimp only
      rw [hskip]
      exact ⟨s'', rfl, by simpa [hp] using hs''⟩

end Yields

/-! ### Looking ahead -/

theorem rest_receive (s : Source) (count : Nat) (script : List Delivery) :
    (s.receive count script).rest = s.rest := by
  simp [receive, rest]

/-- So many bytes can be seen ahead once as many have been received. -/
theorem take_unread_receive {s : Source} {n count : Nat} (h : n - s.unread.length ≤ count)
    (script : List Delivery) : (s.receive count script).unread.take n = s.rest.take n := by
  rw [receive, rest, List.take_append, List.take_append, List.take_take, Nat.min_eq_left h]

/-- A buffer that holds enough is not filled any further. -/
theorem fill_of_le {n : Nat} {s : Source} (h : n ≤ s.unread.length) (script : List Delivery) :
    fill n script s = .ok () s := by
  cases script with
  | nil => rw [fill, if_pos h]
  | cons d script => cases d <;> rw [fill, if_pos h]

/-- Filling a buffer brings as many bytes as are wanted, or all there are. -/
theorem fill_steady {n : Nat} {script : List Delivery} {s : Source}
    (hs : ∀ d ∈ script, ∃ count, d = .upTo (count + 1)) (hn : n ≤ s.capacity)
    (hscript : s.feed.script = script) :
    ∃ s', fill n script s = .ok () s' ∧ s'.rest = s.rest ∧ s'.position = s.position ∧
      s'.capacity = s.capacity ∧ s'.unread.take n = s.rest.take n ∧
      ∀ d ∈ s'.feed.script, d ∈ script := by
  induction script generalizing s with
  | nil =>
    rw [fill]
    split
    · rename_i hle
      exact ⟨s, rfl, rfl, rfl, rfl, (List.take_append_of_le_length hle).symm, by simp [hscript]⟩
    · rename_i hlt
      exact ⟨_, rfl, s.rest_receive .., rfl, rfl, take_unread_receive (by omega) [],
        by simp [receive]⟩
  | cons d script ih =>
    rw [List.forall_mem_cons] at hs
    obtain ⟨⟨count, rfl⟩, hs⟩ := hs
    rw [fill]
    split
    · rename_i hle
      exact ⟨s, rfl, rfl, rfl, rfl, (List.take_append_of_le_length hle).symm, by simp [hscript]⟩
    · rename_i hlt
      dsimp only
      split
      · -- A delivery of nothing, though there is room: nothing is to come.
        rename_i hempty
        have hnil : s.feed.bytes = [] := by
          rcases List.take_eq_nil_iff.mp (List.isEmpty_iff.mp hempty) with hzero | hnil
          · omega
          · exact hnil
        refine ⟨_, rfl, s.rest_receive .., rfl, rfl, ?_, fun d hd => List.mem_cons_of_mem _ hd⟩
        rw [receive, rest, hnil, List.take_nil]
      · obtain ⟨s', hfill, hrest, hp, hcap, htake, hmem⟩ := ih
          (s := s.receive (min (count + 1) (s.capacity - s.unread.length)) script) hs hn rfl
        rw [s.rest_receive] at hrest htake
        exact ⟨s', hfill, hrest, hp, hcap, htake, fun d hd => List.mem_cons_of_mem _ (hmem d hd)⟩

/-- The next bytes can be seen ahead, as many as the buffer has room for. -/
theorem Yields.peek {s : Source} {bytes : List UInt8} {position n : Nat}
    (h : s.Yields bytes position) (hs : ∀ d ∈ s.feed.script, ∃ count, d = .upTo (count + 1))
    (hn : n ≤ s.capacity) :
    ∃ s', s.peek n = .ok (bytes.take n) s' ∧ s'.Yields bytes position := by
  rw [Source.peek, Nat.min_eq_left hn]
  obtain ⟨s', hfill, hrest, hp, hcap, htake, hmem⟩ := fill_steady hs hn rfl
  rw [hfill]
  dsimp only
  rw [htake, h.rest]
  refine ⟨s', rfl, ⟨fun d hd => h.steady.script d (hmem d hd), ?_⟩, hrest.trans h.rest,
    hp.trans h.position⟩
  rw [hcap, hrest]
  exact h.steady.room

/-- The head of a stream can be seen, if every request brings bytes. -/
theorem peek_ofFeed {feed : Feed} (hs : ∀ d ∈ feed.script, ∃ count, d = .upTo (count + 1))
    (bufferSize : Nat) :
    ∃ s, (ofFeed feed bufferSize).peek 4 = .ok (feed.bytes.take 4) s ∧ s.Yields feed.bytes 0 :=
  (yields_ofFeed (fun d hd => .of_upTo (hs d hd)) bufferSize).peek hs (Nat.le_max_right ..)

end Source

end Tabular
