/-
Byte sources: a text in memory, or a stream read through a buffer.

* `Feed` — the far end of a stream, which delivers bytes a few at a time and
  may be interrupted or fail;
* `Source` — what a reader takes bytes from: buffered bytes, and a feed;
* `Source.next`, `Source.peek`, `Source.skip` — its operations.

Whatever fails, no byte is lost or repeated: the unread bytes followed by those
the feed still holds are always the rest of the input.

Design notes: a text in memory is a source with everything buffered and
nothing to come, so there is one type of source and one set of laws.
-/
import Tabular.Error

namespace Tabular

/-- What a feed does when it is asked for bytes. -/
inductive Delivery
  /-- Delivers at most that many; none looks like the end of the input. -/
  | upTo (count : Nat)
  | interrupted
  | failed (reason : String)
  deriving DecidableEq

/-- Bytes to come, and how the next requests for them go.  After the script
every request is met as far as it can be. -/
structure Feed where
  bytes : List UInt8
  script : List Delivery
  deriving DecidableEq

namespace Feed

/-- Asks for at most `room` bytes, and again after an interruption. -/
def request (room : Nat) (bytes : List UInt8) : List Delivery → Attempt Feed (List UInt8)
  | [] => .ok (bytes.take room) ⟨bytes.drop room, []⟩
  | .upTo count :: script =>
    .ok (bytes.take (min count room)) ⟨bytes.drop (min count room), script⟩
  | .interrupted :: script => request room bytes script
  | .failed reason :: script => .error (.io (.failed reason)) ⟨bytes, script⟩

/-- What was delivered and what is to come are what was to come before. -/
theorem request_ok {room : Nat} {bytes got : List UInt8} {script : List Delivery} {feed : Feed}
    (h : request room bytes script = .ok got feed) : got ++ feed.bytes = bytes := by
  induction script with
  | nil =>
    simp only [request, EStateM.Result.ok.injEq] at h
    obtain ⟨rfl, rfl⟩ := h
    exact List.take_append_drop _ _
  | cons d script ih =>
    cases d with
    | upTo count =>
      simp only [request, EStateM.Result.ok.injEq] at h
      obtain ⟨rfl, rfl⟩ := h
      exact List.take_append_drop _ _
    | interrupted => exact ih h
    | failed reason => simp [request] at h

/-- No more is delivered than there is room for. -/
theorem length_le_of_request {room : Nat} {bytes got : List UInt8} {script : List Delivery}
    {feed : Feed} (h : request room bytes script = .ok got feed) : got.length ≤ room := by
  induction script with
  | nil =>
    obtain ⟨rfl, -⟩ := EStateM.Result.ok.inj h
    exact List.length_take_le ..
  | cons d script ih =>
    cases d with
    | upTo count =>
      obtain ⟨rfl, -⟩ := EStateM.Result.ok.inj h
      exact Nat.le_trans (List.length_take_le ..) (Nat.min_le_right ..)
    | interrupted => exact ih h
    | failed reason => cases h

end Feed

/-- Bytes to be read one after another. -/
structure Source where
  /-- Bytes in the buffer that have not been read. -/
  unread : List UInt8
  feed : Feed
  /-- The most bytes that the buffer holds. -/
  capacity : Nat
  /-- The number of bytes read so far. -/
  position : Nat
  deriving DecidableEq

namespace Source

/-- A text in memory. -/
def ofBytes (bytes : List UInt8) : Source := ⟨bytes, ⟨[], []⟩, bytes.length, 0⟩

/-- A stream.  The buffer has room for a byte order mark at least. -/
def ofFeed (feed : Feed) (bufferSize : Nat) : Source := ⟨[], feed, max bufferSize 4, 0⟩

/-- The bytes that have not been read. -/
def rest (s : Source) : List UInt8 := s.unread ++ s.feed.bytes

/-- The next byte, `none` at the end of the input. -/
def next (s : Source) : Attempt Source (Option UInt8) :=
  match s.unread with
  | b :: unread => .ok (some b) { s with unread, position := s.position + 1 }
  | [] =>
    -- The buffer is empty, so all of it may be filled.
    match Feed.request s.capacity s.feed.bytes s.feed.script with
    | .error e feed => .error e { s with feed }
    | .ok [] feed => .ok none { s with feed }
    | .ok (b :: unread) feed => .ok (some b) { s with unread, feed, position := s.position + 1 }

/-- Adds at most `count` bytes to the buffer, after which the feed goes on as
`script` says. -/
def receive (s : Source) (count : Nat) (script : List Delivery) : Source :=
  { s with
    unread := s.unread ++ s.feed.bytes.take count
    feed := ⟨s.feed.bytes.drop count, script⟩ }

/-- Makes the buffer hold `n` bytes, or as many as come before a delivery of
none.  An interruption is an error here. -/
def fill (n : Nat) : List Delivery → Source → Attempt Source Unit
  | [], s =>
    if n ≤ s.unread.length then .ok () s
    else .ok () (s.receive (s.capacity - s.unread.length) [])
  | .upTo count :: script, s =>
    if n ≤ s.unread.length then .ok () s
    else
      let count := min count (s.capacity - s.unread.length)
      if (s.feed.bytes.take count).isEmpty then .ok () (s.receive 0 script)
      else fill n script (s.receive count script)
  | .interrupted :: script, s =>
    if n ≤ s.unread.length then .ok () s else .error (.io .interrupted) (s.receive 0 script)
  | .failed reason :: script, s =>
    if n ≤ s.unread.length then .ok () s else .error (.io (.failed reason)) (s.receive 0 script)

/-- At most `n` bytes that come next, not more than the buffer holds; they
stay unread. -/
def peek (n : Nat) (s : Source) : Attempt Source (List UInt8) :=
  let n := min n s.capacity
  match fill n s.feed.script s with
  | .error e s => .error e s
  | .ok () s => .ok (s.unread.take n) s

/-- Reads and drops `n` bytes, or as many as there are. -/
def skip : Nat → Source → Attempt Source Unit
  | 0, s => .ok () s
  | n + 1, s =>
    match s.next with
    | .error e s => .error e s
    | .ok none s => .ok () s
    | .ok (some _) s => skip n s

/-- A byte that is read was the first of the rest. -/
theorem next_some {s s' : Source} {b : UInt8} (h : s.next = .ok (some b) s') :
    s.rest = b :: s'.rest ∧ s'.position = s.position + 1 := by
  unfold next at h
  split at h
  · rename_i c unread hu
    simp only [EStateM.Result.ok.injEq, Option.some.injEq] at h
    obtain ⟨rfl, rfl⟩ := h
    simp [rest, hu]
  · rename_i hu
    split at h <;> simp at h
    rename_i c unread feed hr
    obtain ⟨rfl, rfl⟩ := h
    have := Feed.request_ok hr
    simp [rest, hu, ← this]

/-- Where no byte comes, none is read and none is lost. -/
theorem next_none {s s' : Source} (h : s.next = .ok none s') :
    s'.rest = s.rest ∧ s'.position = s.position := by
  unfold next at h
  split at h
  · simp at h
  · rename_i hu
    split at h <;> simp at h
    rename_i feed hr
    subst h
    have := Feed.request_ok hr
    simp [rest, hu, ← this]

end Source

end Tabular
