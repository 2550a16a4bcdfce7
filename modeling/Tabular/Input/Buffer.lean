/-
Streams with their buffer laid out in place.

* `Buffer` — room for so many bytes, of which those between two marks are
  unread;
* `Buffer.refill`, `Buffer.compact`, `Buffer.extend` — bytes are put in place
  of those that have been read, or the unread ones moved to the front and more
  put after them;
* `Stream` — a feed that is read through such a buffer.

A stream does what `Source` says, which tells of the unread bytes alone.
-/
import Tabular.Input.Source

namespace Tabular

/-- Room for bytes, of which those from `start` to `stop` are unread. -/
structure Buffer where
  bytes : List UInt8
  start : Nat
  stop : Nat
  start_le : start ≤ stop
  stop_le : stop ≤ bytes.length

namespace Buffer

/-- Puts bytes in place of those from an offset on. -/
def overwrite (bytes : List UInt8) (offset : Nat) (got : List UInt8) : List UInt8 :=
  bytes.take offset ++ got ++ bytes.drop (offset + got.length)

theorem length_overwrite {bytes got : List UInt8} {offset : Nat}
    (h : offset + got.length ≤ bytes.length) :
    (overwrite bytes offset got).length = bytes.length := by
  rw [overwrite, List.length_append, List.length_append, List.length_take, List.length_drop]
  omega

variable (b : Buffer)

/-- The most bytes that it holds. -/
def size : Nat := b.bytes.length

def unread : List UInt8 := (b.bytes.take b.stop).drop b.start

/-- A buffer in which nothing is unread. -/
def blank (size : Nat) : Buffer := ⟨List.replicate size 0, 0, 0, Nat.le_refl 0, Nat.zero_le _⟩

/-- The first unread byte, and the buffer once that is read. -/
def pop? : Option (UInt8 × Buffer) :=
  if h : b.start < b.stop then
    some (b.bytes.get ⟨b.start, Nat.lt_of_lt_of_le h b.stop_le⟩, { b with
      start := b.start + 1
      start_le := h })
  else none

/-- At most `n` unread bytes. -/
def head (n : Nat) : List UInt8 := (b.bytes.take (min (b.start + n) b.stop)).drop b.start

/-- Puts bytes to the front, in place of all others. -/
def refill (got : List UInt8) (h : got.length ≤ b.size) : Buffer where
  bytes := overwrite b.bytes 0 got
  start := 0
  stop := got.length
  start_le := Nat.zero_le _
  stop_le := by
    rw [length_overwrite (by rwa [Nat.zero_add])]
    exact h

/-- Moves the unread bytes to the front. -/
def compact : Buffer where
  bytes := overwrite b.bytes 0 b.unread
  start := 0
  stop := b.stop - b.start
  start_le := Nat.zero_le _
  stop_le := by
    have hunread : b.unread.length ≤ b.bytes.length := by
      rw [unread, List.length_drop, List.length_take]
      omega
    rw [length_overwrite (by rwa [Nat.zero_add])]
    exact Nat.le_trans (Nat.sub_le ..) b.stop_le

/-- Puts bytes after the unread ones. -/
def extend (got : List UInt8) (h : got.length ≤ b.size - b.stop) : Buffer where
  bytes := overwrite b.bytes b.stop got
  start := b.start
  stop := b.stop + got.length
  start_le := Nat.le_trans b.start_le (Nat.le_add_right ..)
  stop_le := by
    have hle := b.stop_le
    have hsum : b.stop + got.length ≤ b.bytes.length := by
      rw [size] at h
      omega
    rw [length_overwrite hsum]
    exact hsum

end Buffer

/-- Asks for at most `room` bytes once, so that an interruption is an error. -/
def Feed.read (room : Nat) (feed : Feed) : Attempt Feed (List UInt8) :=
  match feed.script with
  | [] => .ok (feed.bytes.take room) ⟨feed.bytes.drop room, []⟩
  | .upTo count :: script =>
    .ok (feed.bytes.take (min count room)) ⟨feed.bytes.drop (min count room), script⟩
  | .interrupted :: script => .error (.io .interrupted) ⟨feed.bytes, script⟩
  | .failed reason :: script => .error (.io (.failed reason)) ⟨feed.bytes, script⟩

theorem Feed.length_le_of_read {room : Nat} {feed feed' : Feed} {got : List UInt8}
    (h : feed.read room = .ok got feed') : got.length ≤ room := by
  rw [read] at h
  split at h
  · obtain ⟨rfl, -⟩ := EStateM.Result.ok.inj h
    exact List.length_take_le ..
  · obtain ⟨rfl, -⟩ := EStateM.Result.ok.inj h
    exact Nat.le_trans (List.length_take_le ..) (Nat.min_le_right ..)
  · cases h
  · cases h

/-- A feed that is read through a buffer. -/
structure Stream where
  buffer : Buffer
  feed : Feed
  /-- The number of bytes read so far. -/
  position : Nat

namespace Stream

/-- A stream of which nothing has been read.  The buffer has room for a byte
order mark at least. -/
def ofFeed (feed : Feed) (bufferSize : Nat) : Stream := ⟨.blank (max bufferSize 4), feed, 0⟩

/-- The next byte, `none` at the end of the input. -/
def next (s : Stream) : Attempt Stream (Option UInt8) :=
  match s.buffer.pop? with
  | some (b, buffer) => .ok (some b) { s with buffer, position := s.position + 1 }
  | none =>
    match h : Feed.request s.buffer.size s.feed.bytes s.feed.script with
    | .error e feed => .error e { s with feed }
    | .ok got feed =>
      match (s.buffer.refill got (Feed.length_le_of_request h)).pop? with
      | some (b, buffer) => .ok (some b) { buffer, feed, position := s.position + 1 }
      | none =>
        .ok none { s with buffer := s.buffer.refill got (Feed.length_le_of_request h), feed }

/-- Puts bytes after the unread ones until those end at `n`, or none are
brought. -/
def fill (n : Nat) (s : Stream) : Attempt Stream Unit :=
  if s.buffer.stop < n then
    match h : s.feed.read (s.buffer.size - s.buffer.stop) with
    | .error e feed => .error e { s with feed }
    | .ok [] feed => .ok () { s with feed }
    | .ok (b :: got) feed =>
      fill n { s with buffer := s.buffer.extend (b :: got) (Feed.length_le_of_read h), feed }
  else .ok () s
termination_by n - s.buffer.stop
decreasing_by
  simp only [Buffer.extend, List.length_cons]
  omega

/-- Makes `n` bytes unread, or as many as come before none are brought. -/
def ensure (n : Nat) (s : Stream) : Attempt Stream Unit :=
  if s.buffer.stop - s.buffer.start < n then
    -- The unread bytes go to the front, and more come after them.
    fill n { s with buffer := s.buffer.compact }
  else .ok () s

/-- At most `n` bytes that come next, not more than the buffer holds; they
stay unread. -/
def peek (n : Nat) (s : Stream) : Attempt Stream (List UInt8) :=
  let n := min n s.buffer.size
  match ensure n s with
  | .error e s => .error e s
  | .ok () s => .ok (s.buffer.head n) s

/-- Reads and drops `n` bytes, or as many as there are. -/
def skip : Nat → Stream → Attempt Stream Unit
  | 0, s => .ok () s
  | n + 1, s =>
    match s.next with
    | .error e s => .error e s
    | .ok none s => .ok () s
    | .ok (some _) s => skip n s

end Stream

end Tabular
