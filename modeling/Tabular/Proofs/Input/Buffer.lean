/-
What is laid out in place is what a source says.

* `Buffer.unread_refill`, `Buffer.unread_compact`, `Buffer.unread_extend` —
  what is unread after bytes were put in the buffer or moved;
* `Stream.source` — a stream as a source, which tells of the unread bytes and
  not where they lie;
* `Stream.alike_next`, `Stream.alike_peek`, `Stream.alike_skip` — a stream
  answers as that source, and stays alike;
* `Stream.source_calls` — whatever is asked of it.
-/
import Tabular.Input.Buffer
import Tabular.Proofs.Input.Calls

namespace Tabular

namespace Buffer

variable {b : Buffer} {got : List UInt8}

theorem length_unread (b : Buffer) : b.unread.length = b.stop - b.start := by
  rw [unread, List.length_drop, List.length_take, Nat.min_eq_left b.stop_le]

@[simp] theorem unread_blank (size : Nat) : (blank size).unread = [] := List.drop_nil

@[simp] theorem size_blank (size : Nat) : (blank size).size = size := List.length_replicate

theorem take_overwrite {bytes : List UInt8} {offset : Nat} (h : offset ≤ bytes.length) :
    (overwrite bytes offset got).take (offset + got.length) = bytes.take offset ++ got := by
  have hlength : (bytes.take offset ++ got).length = offset + got.length := by
    rw [List.length_append, List.length_take, Nat.min_eq_left h]
  rw [overwrite, ← hlength, List.take_left]

theorem unread_refill (h : got.length ≤ b.size) : (b.refill got h).unread = got := by
  have htake := @take_overwrite got b.bytes 0 (Nat.zero_le _)
  rw [Nat.zero_add, List.take_zero, List.nil_append] at htake
  rw [unread, refill, htake, List.drop_zero]

theorem size_refill (h : got.length ≤ b.size) : (b.refill got h).size = b.size :=
  length_overwrite (by rwa [Nat.zero_add])

/-- The unread bytes are moved as they are put in anew. -/
theorem compact_eq (b : Buffer) (h : b.unread.length ≤ b.size) :
    b.compact = b.refill b.unread h := by
  rw [compact, refill]
  congr
  exact b.length_unread.symm

theorem length_unread_le (b : Buffer) : b.unread.length ≤ b.size := by
  rw [length_unread]
  exact Nat.le_trans (Nat.sub_le ..) b.stop_le

theorem unread_compact (b : Buffer) : b.compact.unread = b.unread := by
  rw [b.compact_eq b.length_unread_le, unread_refill]

theorem size_compact (b : Buffer) : b.compact.size = b.size := by
  rw [b.compact_eq b.length_unread_le, size_refill]

theorem unread_extend (h : got.length ≤ b.size - b.stop) :
    (b.extend got h).unread = b.unread ++ got := by
  rw [unread, unread, extend]
  dsimp only
  rw [take_overwrite b.stop_le, List.drop_append_of_le_length]
  rw [List.length_take, Nat.min_eq_left b.stop_le]
  exact b.start_le

theorem size_extend (h : got.length ≤ b.size - b.stop) : (b.extend got h).size = b.size := by
  have hle : b.stop ≤ b.size := b.stop_le
  exact length_overwrite (show b.stop + got.length ≤ b.size by omega)

theorem head_eq (b : Buffer) (n : Nat) : b.head n = b.unread.take n := by
  rw [head, unread, ← List.take_take, List.drop_take, Nat.add_sub_cancel_left]

theorem pop?_eq_none_iff : b.pop? = none ↔ b.unread = [] := by
  rw [← List.length_eq_zero_iff, length_unread, pop?]
  split
  · simp
    omega
  · simp
    omega

/-- What is read is the first unread byte. -/
theorem unread_of_pop? {x : UInt8} {b' : Buffer} (h : b.pop? = some (x, b')) :
    b.unread = x :: b'.unread ∧ b'.size = b.size := by
  rw [pop?] at h
  split at h
  · rename_i hlt
    obtain ⟨rfl, rfl⟩ := Prod.mk.inj (Option.some.inj h)
    refine ⟨?_, rfl⟩
    have hlength : b.start < (b.bytes.take b.stop).length := by
      rw [List.length_take, Nat.min_eq_left b.stop_le]
      exact hlt
    rw [unread, List.drop_eq_getElem_cons hlength, List.getElem_take]
    rfl
  · cases h

end Buffer

/-- A buffer that is to hold more is filled by one read after another. -/
theorem Source.fill_eq {n : Nat} {s : Source} (hlt : s.unread.length < n) (hn : n ≤ s.capacity) :
    fill n s.feed.script s =
      match s.feed.read (s.capacity - s.unread.length) with
      | .error e feed => .error e { s with feed }
      | .ok [] feed => .ok () { s with feed }
      | .ok (b :: got) feed => fill n feed.script { s with unread := s.unread ++ b :: got, feed } := by
  obtain ⟨unread, ⟨bytes, script⟩, capacity, position⟩ := s
  have hgt : ¬ n ≤ unread.length := Nat.not_le.mpr hlt
  dsimp only at hlt hn ⊢
  rw [Feed.read]
  cases script with
  | nil =>
    rw [fill, if_neg hgt]
    dsimp only
    cases hgot : bytes.take (capacity - unread.length) with
    | nil => simp [receive, hgot]
    | cons b got =>
      dsimp only
      rw [fill]
      split
      · simp [receive, hgot]
      · -- If that is not enough, it is all there is.
        rename_i hfew
        have hlength := congrArg List.length hgot
        rw [List.length_take, List.length_cons] at hlength
        rw [List.length_append, List.length_cons] at hfew
        have hall : bytes.drop (capacity - unread.length) = [] :=
          List.drop_of_length_le (by omega)
        simp [receive, hgot, hall]
  | cons d script =>
    cases d with
    | interrupted | failed =>
      rw [fill, if_neg hgt]
      simp [receive]
    | upTo count =>
      rw [fill, if_neg hgt]
      dsimp only
      cases hgot : bytes.take (min count (capacity - unread.length)) with
      | nil =>
        have hdrop : bytes.drop (min count (capacity - unread.length)) = bytes := by
          rcases List.take_eq_nil_iff.mp hgot with hzero | rfl
          · rw [hzero, List.drop_zero]
          · exact List.drop_nil
        simp [receive, hdrop]
      | cons b got => simp [receive, hgot]

namespace Stream

/-- The stream as a source. -/
def source (s : Stream) : Source := ⟨s.buffer.unread, s.feed, s.buffer.size, s.position⟩

theorem alike_next (s : Stream) : Attempt.Alike (fun s t => s.source = t) s.next s.source.next := by
  rw [next, Source.next]
  split
  · rename_i b buffer hp
    obtain ⟨hunread, hsize⟩ := Buffer.unread_of_pop? hp
    rw [show s.source.unread = b :: buffer.unread from hunread]
    exact .ok (by rw [source, hsize]; rfl)
  · rename_i hp
    have hempty : s.buffer.unread = [] := Buffer.pop?_eq_none_iff.mp hp
    rw [show s.source.unread = [] from hempty]
    dsimp only
    split
    · rename_i e feed hr
      rw [show Feed.request s.source.capacity s.source.feed.bytes s.source.feed.script = _ from hr]
      exact .error (by rw [source, hempty]; rfl)
    · rename_i got feed hr
      have hunread := Buffer.unread_refill (b := s.buffer) (Feed.length_le_of_request hr)
      have hsize := Buffer.size_refill (b := s.buffer) (Feed.length_le_of_request hr)
      rw [show Feed.request s.source.capacity s.source.feed.bytes s.source.feed.script = _ from hr]
      split
      · rename_i b buffer hfirst
        obtain ⟨hgot, hsize'⟩ := Buffer.unread_of_pop? hfirst
        obtain rfl : got = b :: buffer.unread := hunread.symm.trans hgot
        exact .ok (by rw [source, hsize', hsize]; rfl)
      · rename_i hnone
        obtain rfl : got = [] := hunread.symm.trans (Buffer.pop?_eq_none_iff.mp hnone)
        exact .ok (by rw [source, hunread, hsize]; rfl)

theorem length_unread_source {s : Stream} (hstart : s.buffer.start = 0) :
    s.source.unread.length = s.buffer.stop := by
  rw [show s.source.unread.length = _ from s.buffer.length_unread, hstart, Nat.sub_zero]

/-- Where the unread bytes are at the front, there is room after them. -/
theorem fill_source {n : Nat} {s : Stream} (hstart : s.buffer.start = 0) (hlt : s.buffer.stop < n)
    (hn : n ≤ s.buffer.size) :
    Source.fill n s.source.feed.script s.source =
      match s.feed.read (s.buffer.size - s.buffer.stop) with
      | .error e feed => .error e { s.source with feed }
      | .ok [] feed => .ok () { s.source with feed }
      | .ok (b :: got) feed =>
        Source.fill n feed.script { s.source with unread := s.source.unread ++ b :: got, feed } := by
  have hstop := length_unread_source hstart
  have hfill := Source.fill_eq (s := s.source) (hstop.symm ▸ hlt) hn
  rwa [hstop] at hfill

theorem alike_fill {n : Nat} {s : Stream} (hstart : s.buffer.start = 0) (hn : n ≤ s.buffer.size) :
    Attempt.Alike (fun s t => s.source = t) (s.fill n)
      (Source.fill n s.source.feed.script s.source) := by
  fun_induction fill n s with
  | case1 s hlt e feed hr =>
    rw [fill_source hstart hlt hn, hr]
    exact .error rfl
  | case2 s hlt feed hr =>
    rw [fill_source hstart hlt hn, hr]
    exact .ok rfl
  | case3 s hlt b got feed hr ih =>
    have hlength := Feed.length_le_of_read hr
    have hunread := Buffer.unread_extend (b := s.buffer) hlength
    have hsize := Buffer.size_extend (b := s.buffer) hlength
    have hnext := ih hstart (by rwa [hsize])
    rw [source, hunread, hsize] at hnext
    rw [fill_source hstart hlt hn, hr]
    exact hnext
  | case4 s hge =>
    rw [Source.fill_of_le (by rw [length_unread_source hstart]; exact Nat.le_of_not_lt hge)]
    exact .ok rfl

theorem alike_ensure {n : Nat} {s : Stream} (hn : n ≤ s.buffer.size) :
    Attempt.Alike (fun s t => s.source = t) (s.ensure n)
      (Source.fill n s.source.feed.script s.source) := by
  rw [ensure]
  split
  · have hsize := s.buffer.size_compact
    have hcompact : Stream.source { s with buffer := s.buffer.compact } = s.source := by
      rw [source, s.buffer.unread_compact, hsize]
      rfl
    have hfill := @alike_fill n { s with buffer := s.buffer.compact } rfl (by rwa [hsize])
    rwa [hcompact] at hfill
  · rename_i hge
    rw [← s.buffer.length_unread] at hge
    have hle : n ≤ s.source.unread.length := Nat.le_of_not_lt hge
    rw [Source.fill_of_le hle]
    exact .ok rfl

theorem alike_peek (n : Nat) (s : Stream) :
    Attempt.Alike (fun s t => s.source = t) (s.peek n) (s.source.peek n) := by
  have hensure := alike_ensure (Nat.min_le_right n s.buffer.size)
  rw [peek, Source.peek]
  rw [show min n s.source.capacity = min n s.buffer.size from rfl]
  cases he : s.ensure (min n s.buffer.size) with
  | error e s' =>
    rw [he] at hensure
    obtain ⟨t, ht, rfl⟩ := hensure.of_error
    rw [ht]
    exact .error rfl
  | ok a s' =>
    rw [he] at hensure
    obtain ⟨t, ht, rfl⟩ := hensure.of_ok
    rw [ht]
    dsimp only
    rw [s'.buffer.head_eq]
    exact .ok rfl

theorem alike_skip (n : Nat) (s : Stream) :
    Attempt.Alike (fun s t => s.source = t) (s.skip n) (s.source.skip n) := by
  induction n generalizing s with
  | zero => exact .ok rfl
  | succ n ih =>
    have hnext := s.alike_next
    rw [skip, Source.skip]
    cases hn : s.next with
    | error e s' =>
      rw [hn] at hnext
      obtain ⟨t, ht, rfl⟩ := hnext.of_error
      rw [ht]
      exact .error rfl
    | ok b s' =>
      rw [hn] at hnext
      obtain ⟨t, ht, rfl⟩ := hnext.of_ok
      rw [ht]
      cases b with
      | none => exact .ok rfl
      | some b => exact ih s'

/-! ### Whatever is asked -/

/-- What comes of a call. -/
def call (s : Stream) : Call → Attempt Stream Answer := Call.made s.next (skip · s) (peek · s)

/-- The stream after some calls. -/
def calls (s : Stream) (calls : List Call) : Stream := Call.allMade call s calls

theorem alike_call (s : Stream) (call : Call) :
    Attempt.Alike (fun s t => s.source = t) (s.call call) (s.source.call call) := by
  cases call with
  | next => exact s.alike_next.map _
  | skip n => exact (s.alike_skip n).map _
  | peek n => exact (s.alike_peek n).map _

theorem source_calls (s : Stream) (calls : List Call) :
    (s.calls calls).source = s.source.calls calls := by
  induction calls generalizing s with
  | nil => rfl
  | cons call calls ih =>
    have hcall : (Attempt.state (s.call call)).source = Attempt.state (s.source.call call) :=
      (s.alike_call call).state
    exact (ih _).trans (congrArg (Source.calls · calls) hcall)

theorem source_ofFeed (feed : Feed) (bufferSize : Nat) :
    (ofFeed feed bufferSize).source = .ofFeed feed bufferSize := by
  rw [source, ofFeed, Buffer.unread_blank, Buffer.size_blank]
  rfl

end Stream

/-- Whatever is asked of a stream, and whatever fails: what is unread and what
is to come are the input from the position on, and all answers are of these
bytes.  As many as are wanted can be seen ahead just if every read for them
brings one, until the input ends.  All this holds of a buffer that is laid out
in place, which answers alike. -/
theorem Source.calls_faithful (feed : Feed) (bufferSize : Nat) (calls : List Call) :
    let bytes := feed.bytes
    let room := max bufferSize 4
    let s := (Source.ofFeed feed bufferSize).calls calls
    let t := (Stream.ofFeed feed bufferSize).calls calls
    s.Window bytes room ∧ s.Answers bytes room ∧
    ((∀ d ∈ s.feed.script, d.Steady) → ∃ s', s.next = .ok bytes[s.position]? s') ∧
    (∀ n ≤ room, (∃ s', s.peek n = .ok ((bytes.drop s.position).take n) s') ↔
      Feed.Brings (n - s.unread.length) s.feed.bytes.length s.feed.script) ∧
    ((∀ d ∈ s.feed.script, ∃ count, d = .upTo (count + 1)) → ∀ n ≤ room,
      ∃ head s', s.peek n = .ok head s' ∧ head.length = min n (bytes.length - s.position)) ∧
    t.source = s ∧ ∀ call, Attempt.Alike (fun t s => t.source = s) (t.call call) (s.call call) := by
  intro bytes room s t
  have hwindow : s.Window bytes room := (window_ofFeed feed bufferSize).calls calls
  have hsource : t.source = s := by
    rw [Stream.source_calls, Stream.source_ofFeed]
  have hroom : 0 < room := Nat.lt_of_lt_of_le (Nat.succ_pos 3) (Nat.le_max_right ..)
  refine ⟨hwindow, hwindow.answers, hwindow.next_eq_ok hroom, fun n hn => hwindow.peek_eq_ok_iff hn,
    fun hs n hn => ?_, hsource, fun call => ?_⟩
  · obtain ⟨s', hpeek⟩ := (hwindow.peek_eq_ok_iff hn).mpr (.of_upTo hs _ _)
    exact ⟨_, s', hpeek, by rw [List.length_take, List.length_drop]⟩
  · rw [← hsource]
    exact t.alike_call call

end Tabular
