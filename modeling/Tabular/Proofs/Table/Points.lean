/-
Where a text is shared out.

* `FirstFrom` — the first line end from some place on;
* `ChunkEnd` — where a chunk ends that is not to end before some place;
* `isChain_cutsFrom` — each chunk ends where the next one begins, or with the
  text;
* `lt_length_of_mem_chunksAt`, `length_chunksAt_mul_lt` — so every chunk but
  the last is longer than it has to be, and there cannot be many;
* `Shares`, `shares_iff_eq_splitPoints` — all that the points have to be, and
  are.

Design notes: that points lie one after the other and that each is where a
chunk from the one before ends is all that the lengths and the number of the
chunks come from; how the cuts are found matters no further.
-/
import Mathlib.Data.List.Chain
import Tabular.Proofs.Read.Within
import Tabular.Proofs.Table.Chunks

namespace Tabular

/-- The first line end from `least` on stands at `place`. -/
structure FirstFrom (bytes : List UInt8) (lineEnd : UInt8) (least place : Nat) : Prop where
  le : least ≤ place
  lineEnd_at : bytes[place]? = some lineEnd
  none_before : ∀ i, least ≤ i → i < place → bytes[i]? ≠ some lineEnd

/-- Where a chunk ends that is not to end before `nominal`: after the first
line end from there on, or with the bytes if that line end would be their last
byte or there is none. -/
inductive ChunkEnd (bytes : List UInt8) (lineEnd : UInt8) (nominal : Nat) : Nat → Prop
  | cut {place : Nat} (hplace : FirstFrom bytes lineEnd nominal place)
      (hlt : place + 1 < bytes.length) : ChunkEnd bytes lineEnd nominal (place + 1)
  | last (hnone : ∀ i, nominal ≤ i → i + 1 < bytes.length → bytes[i]? ≠ some lineEnd) :
      ChunkEnd bytes lineEnd nominal bytes.length

namespace ChunkEnd

variable {bytes : List UInt8} {lineEnd : UInt8} {nominal stop : Nat}

/-- There is but one place where the chunk ends. -/
theorem unique {stop' : Nat} (h : ChunkEnd bytes lineEnd nominal stop)
    (h' : ChunkEnd bytes lineEnd nominal stop') : stop = stop' := by
  cases h with
  | @cut place hplace hlt =>
    cases h' with
    | @cut place' hplace' =>
      have hle : place ≤ place' :=
        Nat.le_of_not_lt fun hlt => hplace.none_before _ hplace'.le hlt hplace'.lineEnd_at
      have hle' : place' ≤ place :=
        Nat.le_of_not_lt fun hlt => hplace'.none_before _ hplace.le hlt hplace.lineEnd_at
      exact congrArg (· + 1) (Nat.le_antisymm hle hle')
    | last hnone => exact absurd hplace.lineEnd_at (hnone _ hplace.le hlt)
  | last hnone =>
    cases h' with
    | cut hplace hlt => exact absurd hplace.lineEnd_at (hnone _ hplace.le hlt)
    | last => rfl

theorem le_length (h : ChunkEnd bytes lineEnd nominal stop) : stop ≤ bytes.length := by
  cases h with
  | cut _ hlt => exact Nat.le_of_lt hlt
  | last => exact Nat.le_refl _

/-- A chunk that ends before the bytes do ends after a line end, and reaches
further than it has to. -/
theorem of_lt_length (h : ChunkEnd bytes lineEnd nominal stop) (hlt : stop < bytes.length) :
    nominal < stop ∧ bytes[stop - 1]? = some lineEnd := by
  cases h with
  | cut hplace => exact ⟨Nat.lt_succ_of_le hplace.le, hplace.lineEnd_at⟩
  | last => exact absurd hlt (Nat.lt_irrefl _)

end ChunkEnd

section Cuts

variable {bytes : List UInt8} {lineEnd : UInt8} {nominal : Nat}

/-- The bytes from some place on, by where the first line end among them
stands. -/
theorem getElem?_add (k : Nat) :
    bytes[nominal + k]? = ((bytes.drop nominal).takeWhile (· != lineEnd) ++
      (bytes.drop nominal).dropWhile (· != lineEnd))[k]? := by
  rw [List.takeWhile_append_dropWhile, List.getElem?_drop]

/-- A byte that is passed over in search of a line end is none. -/
theorem ne_lineEnd_of_lt {i : Nat} (hle : nominal ≤ i)
    (hlt : i < nominal + ((bytes.drop nominal).takeWhile (· != lineEnd)).length) :
    bytes[i]? ≠ some lineEnd := by
  obtain ⟨k, rfl⟩ := Nat.exists_eq_add_of_le hle
  intro h
  rw [getElem?_add k, List.getElem?_append_left (Nat.lt_of_add_lt_add_left hlt)] at h
  have hne := List.mem_takeWhile_imp (List.mem_of_getElem? h)
  simp at hne

theorem firstFrom_of_dropWhile {x : UInt8} {after : List UInt8}
    (h : (bytes.drop nominal).dropWhile (· != lineEnd) = x :: after) :
    FirstFrom bytes lineEnd nominal
      (nominal + ((bytes.drop nominal).takeWhile (· != lineEnd)).length) where
  le := Nat.le_add_right _ _
  lineEnd_at := by
    obtain rfl := eq_of_dropWhile h
    rw [getElem?_add, h, List.getElem?_append_right (Nat.le_refl _), Nat.sub_self]
    rfl
  none_before := fun _ => ne_lineEnd_of_lt

/-- If at most one byte is left from the first line end on, the chunk ends with
the bytes. -/
theorem chunkEnd_of_length_dropWhile {tail : List UInt8} (htail : bytes.drop nominal = tail)
    (h : (tail.dropWhile (· != lineEnd)).length ≤ 1) :
    ChunkEnd bytes lineEnd nominal bytes.length := by
  subst htail
  refine .last fun i hle hlt => ne_lineEnd_of_lt hle ?_
  have hlength := congrArg List.length
    (List.takeWhile_append_dropWhile (p := (· != lineEnd)) (l := bytes.drop nominal))
  rw [List.length_append, List.length_drop] at hlength
  omega

theorem chunkEnd_of_dropWhile {x : UInt8} {after tail : List UInt8}
    (htail : bytes.drop nominal = tail) (h : tail.dropWhile (· != lineEnd) = x :: after)
    (hlt : nominal + (tail.takeWhile (· != lineEnd)).length + 1 < bytes.length) :
    ChunkEnd bytes lineEnd nominal (nominal + (tail.takeWhile (· != lineEnd)).length + 1) := by
  subst htail
  exact .cut (firstFrom_of_dropWhile h) hlt

/-- Each chunk ends where the next one begins, or with the text. -/
theorem isChain_cutsFrom {size position : Nat} {rest : List UInt8}
    (hrest : bytes.drop position = rest) (hle : position ≤ bytes.length) :
    (position :: cutsFrom size lineEnd position rest ++ [bytes.length]).IsChain fun a b =>
      ChunkEnd bytes lineEnd (a + size) b := by
  have htail : ∀ {position : Nat} {rest : List UInt8}, bytes.drop position = rest →
      bytes.drop (position + size) = rest.drop size := by
    rintro position _ rfl
    exact List.drop_drop.symm
  fun_induction cutsFrom size lineEnd position rest with
  | case1 position rest tail h =>
    refine List.isChain_pair.mpr (chunkEnd_of_length_dropWhile (htail hrest) ?_)
    exact h ▸ Nat.zero_le 1
  | case2 position rest tail x h =>
    refine List.isChain_pair.mpr (chunkEnd_of_length_dropWhile (htail hrest) ?_)
    exact h ▸ Nat.le_refl 1
  | case3 position rest tail x b after h cut ih =>
    obtain ⟨-, hcut, hdrop, -⟩ := exists_cut hrest hle h rfl
    refine List.isChain_cons_cons.mpr ⟨?_, ih hdrop (Nat.le_of_lt hcut)⟩
    exact chunkEnd_of_dropWhile (htail hrest) h hcut

end Cuts

section Chunks

variable {bytes : List UInt8} {lineEnd : UInt8} {size : Nat}

/-- Every point but the first follows one. -/
theorem chunkEnd_of_mem {start point : Nat} {points : List Nat}
    (h : (start :: points).IsChain fun a b => ChunkEnd bytes lineEnd (a + size) b)
    (hpoint : point ∈ points) : ∃ a, ChunkEnd bytes lineEnd (a + size) point := by
  induction points generalizing start with
  | nil => cases hpoint
  | cons b points ih =>
    obtain ⟨hfirst, htail⟩ := List.isChain_cons_cons.mp h
    rcases List.mem_cons.mp hpoint with rfl | hpoint
    · exact ⟨start, hfirst⟩
    · exact ih htail hpoint

/-- A cut is not the end of the bytes. -/
theorem lt_length_of_pairwise {a b : Nat} {cuts : List Nat}
    (hascends : (a :: b :: cuts ++ [bytes.length]).Pairwise (· < ·)) : b < bytes.length :=
  (List.pairwise_cons.mp (List.pairwise_cons.mp hascends).2).1 _
    (List.mem_append_right cuts (List.mem_singleton_self _))

/-- Every chunk but the last is longer than it has to be. -/
theorem lt_length_of_mem_chunksAt {a : Nat} {cuts : List Nat}
    (h : (a :: cuts ++ [bytes.length]).IsChain fun a b => ChunkEnd bytes lineEnd (a + size) b)
    (hascends : (a :: cuts ++ [bytes.length]).Pairwise (· < ·)) :
    ∀ chunk ∈ (chunksAt bytes (a :: cuts ++ [bytes.length])).dropLast, size < chunk.length := by
  induction cuts generalizing a with
  | nil =>
    intro chunk hchunk
    cases hchunk
  | cons b cuts ih =>
    obtain ⟨hab, htail⟩ := List.isChain_cons_cons.mp h
    have hb : b < bytes.length := lt_length_of_pairwise hascends
    have hsize : a + size < b := (hab.of_lt_length hb).1
    have hmore : chunksAt bytes (b :: cuts ++ [bytes.length]) ≠ [] := by
      cases cuts <;> exact List.cons_ne_nil _ _
    intro chunk hchunk
    rw [List.cons_append, List.cons_append, chunksAt_cons_cons, ← List.cons_append,
      List.dropLast_cons_of_ne_nil hmore] at hchunk
    rcases List.mem_cons.mp hchunk with rfl | hchunk
    · rw [Span.length_slice (Nat.le_of_lt hb)]
      omega
    · exact ih htail (List.pairwise_cons.mp hascends).2 chunk hchunk

theorem length_chunksAt (bytes : List UInt8) (points : List Nat) :
    (chunksAt bytes points).length = points.length - 1 := by
  rw [chunksAt, List.length_map, List.length_zip, List.length_tail]
  exact Nat.min_eq_right (Nat.sub_le _ _)

/-- The chunks that end at cuts fit into the bytes, each with a byte more than
it has to have. -/
theorem length_mul_lt {a : Nat} {cuts : List Nat}
    (h : (a :: cuts ++ [bytes.length]).IsChain fun a b => ChunkEnd bytes lineEnd (a + size) b)
    (hascends : (a :: cuts ++ [bytes.length]).Pairwise (· < ·)) :
    cuts.length * (size + 1) + a < bytes.length := by
  induction cuts generalizing a with
  | nil => simpa using hascends
  | cons b cuts ih =>
    obtain ⟨hab, htail⟩ := List.isChain_cons_cons.mp h
    have hsize : a + size < b := (hab.of_lt_length (lt_length_of_pairwise hascends)).1
    have hmore := ih htail (List.pairwise_cons.mp hascends).2
    rw [List.length_cons, Nat.succ_mul]
    omega

/-- If each chunk reaches as far as an equal share does, there are fewer cuts
than shares. -/
theorem length_lt_of_div_le {a workers : Nat} {cuts : List Nat} (hworkers : 1 ≤ workers)
    (h : (a :: cuts ++ [bytes.length]).IsChain fun a b => ChunkEnd bytes lineEnd (a + size) b)
    (hascends : (a :: cuts ++ [bytes.length]).Pairwise (· < ·))
    (hsize : (bytes.length - a) / workers ≤ size) : cuts.length < workers := by
  have hfit := length_mul_lt h hascends
  by_contra hge
  have hmany : workers * (size + 1) ≤ cuts.length * (size + 1) :=
    Nat.mul_le_mul_right _ (Nat.le_of_not_lt hge)
  have hshare : bytes.length - a < workers * ((bytes.length - a) / workers + 1) :=
    Nat.lt_mul_div_succ _ hworkers
  have hreach : workers * ((bytes.length - a) / workers + 1) ≤ workers * (size + 1) :=
    Nat.mul_le_mul_left _ (Nat.succ_le_succ hsize)
  omega

/-- Ascending points from the same place to the end of the bytes are the same
if the chunks between them end where chunks do. -/
theorem points_unique {a : Nat} {points points' : List Nat}
    (h : (a :: points).IsChain fun a b => ChunkEnd bytes lineEnd (a + size) b)
    (hascends : (a :: points).Pairwise (· < ·))
    (hlast : (a :: points).getLast? = some bytes.length)
    (h' : (a :: points').IsChain fun a b => ChunkEnd bytes lineEnd (a + size) b)
    (hascends' : (a :: points').Pairwise (· < ·))
    (hlast' : (a :: points').getLast? = some bytes.length) : points = points' := by
  -- Nothing follows the end of the bytes.
  have hend : ∀ {a b : Nat} {points : List Nat}, a = bytes.length →
      (a :: b :: points).Pairwise (· < ·) →
      ¬ ((a :: b :: points).IsChain fun a b => ChunkEnd bytes lineEnd (a + size) b) := by
    intro a b points ha hascends h
    have hlt : a < b := (List.pairwise_cons.mp hascends).1 b (List.mem_cons_self ..)
    have hle := (List.isChain_cons_cons.mp h).1.le_length
    omega
  induction points generalizing a points' with
  | nil =>
    cases points' with
    | nil => rfl
    | cons b points' => exact absurd h' (hend (by simpa using hlast) hascends')
  | cons b points ih =>
    cases points' with
    | nil => exact absurd h (hend (by simpa using hlast') hascends)
    | cons b' points' =>
      obtain ⟨hfirst, htail⟩ := List.isChain_cons_cons.mp h
      obtain ⟨hfirst', htail'⟩ := List.isChain_cons_cons.mp h'
      obtain rfl := hfirst.unique hfirst'
      rw [List.getLast?_cons_cons] at hlast hlast'
      rw [ih htail (List.pairwise_cons.mp hascends).2 hlast htail'
        (List.pairwise_cons.mp hascends').2 hlast']

end Chunks

/-- What it is for points to share out bytes from `start` on among workers.  A
chunk is not to end before it is as long as an equal share, as long as the
minimum and one byte long; of the first two it is then longer, as the line end
that it ends after is part of it. -/
structure Shares (bytes : List UInt8) (start : Nat) (lineEnd : UInt8) (workers minimum : Nat)
    (points : List Nat) : Prop where
  ascends : points.Pairwise (· < ·)
  first : points.head? = some start
  last : points.getLast? = some bytes.length
  after_lineEnd : ∀ point ∈ points, start < point → point < bytes.length →
    bytes[point - 1]? = some lineEnd
  ends : points.IsChain fun a b =>
    ChunkEnd bytes lineEnd (a + max (max ((bytes.length - start) / workers) minimum) 1) b
  whole : (chunksAt bytes points).flatten = bytes.drop start
  long : ∀ chunk ∈ (chunksAt bytes points).dropLast,
    max minimum ((bytes.length - start) / workers) < chunk.length
  few : (chunksAt bytes points).length ≤ workers

section Shares

variable {bytes : List UInt8} {start : Nat} {lineEnd : UInt8} {workers minimum : Nat}

/-- Cuts that ascend, with chunks between them that end where chunks do, share
out the bytes. -/
theorem shares_of_isChain {cuts : List Nat} (hworkers : 1 ≤ workers)
    (hascends : (start :: cuts ++ [bytes.length]).Pairwise (· < ·))
    (hends : (start :: cuts ++ [bytes.length]).IsChain fun a b =>
      ChunkEnd bytes lineEnd (a + max (max ((bytes.length - start) / workers) minimum) 1) b)
    (hwhole : (chunksAt bytes (start :: cuts ++ [bytes.length])).flatten = bytes.drop start) :
    Shares bytes start lineEnd workers minimum (start :: cuts ++ [bytes.length]) where
  ascends := hascends
  first := rfl
  last := List.getLast?_concat
  after_lineEnd := by
    intro point hpoint hstart hlt
    rcases List.mem_cons.mp hpoint with rfl | hpoint
    · exact absurd hstart (Nat.lt_irrefl _)
    · obtain ⟨a, hend⟩ := chunkEnd_of_mem hends hpoint
      exact (hend.of_lt_length hlt).2
  ends := hends
  whole := hwhole
  long := by
    intro chunk hchunk
    have hlong := lt_length_of_mem_chunksAt hends hascends chunk hchunk
    omega
  few := by
    have hsize : (bytes.length - start) / workers ≤
        max (max ((bytes.length - start) / workers) minimum) 1 := by omega
    rw [length_chunksAt, List.length_append, List.length_cons]
    exact length_lt_of_div_le hworkers hends hascends hsize

/-- No other points share out the bytes. -/
theorem Shares.unique {points points' : List Nat}
    (h : Shares bytes start lineEnd workers minimum points)
    (h' : Shares bytes start lineEnd workers minimum points') : points = points' := by
  obtain ⟨rest, rfl⟩ := List.head?_eq_some_iff.mp h.first
  obtain ⟨rest', rfl⟩ := List.head?_eq_some_iff.mp h'.first
  rw [points_unique h.ends h.ascends h.last h'.ends h'.ascends h'.last]

/-- The points that are found share out the bytes. -/
theorem shares_splitPoints (hworkers : 1 ≤ workers) (hlt : start < bytes.length) :
    Shares bytes start lineEnd workers minimum
      (splitPoints bytes start lineEnd workers minimum) := by
  have hne : bytes.drop start ≠ [] := by
    rw [Ne, List.drop_eq_nil_iff]
    omega
  obtain ⟨hpieces, hascends⟩ :=
    @pieces_chunksAt (max (max ((bytes.length - start) / workers) minimum) 1) lineEnd start bytes _
      rfl hne
  rw [splitPoints, Nat.min_eq_left (Nat.le_of_lt hlt)]
  -- The points ascend, so none of them is dropped.
  rw [eraseReps_eq_self hascends]
  exact shares_of_isChain hworkers hascends (isChain_cutsFrom rfl (Nat.le_of_lt hlt))
    hpieces.flatten_eq

end Shares

/-- Where a text is shared out among workers.  If nothing of it is left there
is but its end.  Otherwise the points ascend from where it begins to its end,
each chunk but the last ends after the first line end that lies as far into it
as it has to reach, and is longer than that, and there are no more chunks than
workers.  No other points are like that. -/
theorem shares_iff_eq_splitPoints {bytes : List UInt8} {start : Nat} (lineEnd : UInt8) {workers : Nat}
    (minimum : Nat) (hstart : start ≤ bytes.length) (hworkers : 1 ≤ workers) :
    (start = bytes.length →
      splitPoints bytes start lineEnd workers minimum = [bytes.length]) ∧
    (start < bytes.length → ∀ points,
      Shares bytes start lineEnd workers minimum points ↔
        points = splitPoints bytes start lineEnd workers minimum) := by
  constructor
  · rintro rfl
    rw [splitPoints, Nat.min_self, List.drop_length, cutsFrom_nil]
    simp [List.eraseReps, List.eraseRepsBy, List.eraseRepsBy.loop]
  · intro hlt points
    constructor
    · intro h
      exact h.unique (shares_splitPoints hworkers hlt)
    · rintro rfl
      exact shares_splitPoints hworkers hlt

/-- Four lines, `aa` to `dd`, for four workers: the cuts nominally fall within
lines, so there are but two chunks. -/
theorem shares_iff_eq_splitPoints_lines :
    splitPoints [97, 97, 10, 98, 98, 10, 99, 99, 10, 100, 100, 10] 0 10 4 1 = [0, 6, 12] ∧
    Shares [97, 97, 10, 98, 98, 10, 99, 99, 10, 100, 100, 10] 0 10 4 1 [0, 6, 12] := by
  have hpoints : [0, 6, 12] =
      splitPoints [97, 97, 10, 98, 98, 10, 99, 99, 10, 100, 100, 10] 0 10 4 1 := by cbv
  exact ⟨hpoints.symm,
    ((shares_iff_eq_splitPoints 10 1 (by decide) (by decide)).2 (by decide) _).mpr hpoints⟩

end Tabular
