/-
Streams that are interrupted.

* `Feed.ShowsHead` — whether deliveries bring so many bytes, or show that there
  are no more;
* `Source.fill_interrupted` — a look ahead is interrupted unless they do;
* `readFeed_interrupted` — an interruption that does not fall into the look for
  a byte order mark is passed over, and one that does ends the read.

Design notes: a request is made again after an interruption, so a source that
is only ever asked for bytes does not show it.  A look ahead takes what the
feed answers as it comes.
-/
import Mathlib.Algebra.GroupWithZero.Nat
import Tabular.Proofs.Read.Stream

namespace Tabular

/-- Whether deliveries of at most those sizes bring `n` of `left` bytes, or
else show the end of the input: one more is asked for when all have come. -/
def Feed.ShowsHead (n left : Nat) (sizes : List Nat) : Prop :=
  n ≤ min sizes.sum left ∨ sizes ≠ [] ∧ left ≤ sizes.dropLast.sum

namespace Feed.ShowsHead

variable {n left size : Nat} {sizes : List Nat}

instance : Decidable (ShowsHead n left sizes) :=
  inferInstanceAs (Decidable (_ ∨ _))

/-- Nothing is wanted. -/
theorem of_le {seen : Nat} (h : n ≤ seen) : ShowsHead (n - seen) left sizes := by
  rw [Nat.sub_eq_zero_of_le h]
  exact .inl (Nat.zero_le _)

theorem not_nil (hn : n ≠ 0) : ¬ ShowsHead n left [] := by
  rintro (h | ⟨h, -⟩)
  · rw [List.sum_nil, Nat.zero_min] at h
    exact hn (Nat.le_zero.mp h)
  · exact h rfl

/-- The end is shown by any delivery. -/
theorem ended : ShowsHead n 0 (size :: sizes) := .inr ⟨by simp, Nat.zero_le _⟩

/-- A delivery for which there may be room for `room` bytes only. -/
theorem cons_iff {room : Nat} (hroom : n ≤ room) (hleft : left ≠ 0) :
    ShowsHead n left (size :: sizes) ↔
      ShowsHead (n - min (min size room) left) (left - min (min size room) left) sizes := by
  rw [ShowsHead, ShowsHead, List.sum_cons]
  cases sizes with
  | nil =>
    simp only [List.dropLast_singleton, List.sum_nil, ne_eq, reduceCtorEq, not_false_eq_true,
      not_true_eq_false, true_and, false_and, or_false]
    omega
  | cons c cs =>
    simp only [List.dropLast_cons_cons, List.sum_cons, ne_eq, reduceCtorEq, not_false_eq_true,
      true_and]
    omega

end Feed.ShowsHead

namespace Source

variable {s s' : Source} {n : Nat}

/-- A look ahead has been taken: the next `n` bytes are in the buffer. -/
structure Looked (n : Nat) (s s' : Source) : Prop where
  rest : s'.rest = s.rest
  position : s'.position = s.position
  capacity : s'.capacity = s.capacity
  shown : s'.unread.take n = s.rest.take n
  script : ∀ d ∈ s'.feed.script, d ∈ s.feed.script

theorem Looked.of_le (h : n ≤ s.unread.length) : Looked n s s :=
  ⟨rfl, rfl, rfl, (List.take_append_of_le_length h).symm, fun _ => id⟩

/-- Nothing more comes, so that the buffer holds all there is. -/
theorem Looked.of_ended {script : List Delivery} (h : s.feed.bytes = [])
    (hs : ∀ d ∈ script, d ∈ s.feed.script) : Looked n s (s.receive 0 script) :=
  ⟨s.rest_receive .., rfl, rfl, by rw [receive, Source.rest, h, List.take_nil], hs⟩

theorem Looked.of_receive {count : Nat} {script : List Delivery}
    (h : Looked n (s.receive count script) s') (hs : ∀ d ∈ script, d ∈ s.feed.script) :
    Looked n s s' :=
  ⟨h.rest.trans (s.rest_receive ..), h.position, h.capacity,
    h.shown.trans (by rw [s.rest_receive]), fun d hd => hs d (h.script d hd)⟩

/-- What is wanted and what is left both fall by what is delivered. -/
theorem showsHead_receive_iff {size : Nat} {sizes : List Nat} {script : List Delivery}
    (hn : n ≤ s.capacity) (hleft : s.feed.bytes.length ≠ 0) :
    let t := s.receive (min size (s.capacity - s.unread.length)) script
    Feed.ShowsHead (n - s.unread.length) s.feed.bytes.length (size :: sizes) ↔
      Feed.ShowsHead (n - t.unread.length) t.feed.bytes.length sizes := by
  intro t
  let count := min size (s.capacity - s.unread.length)
  have hwanted : n - t.unread.length =
      n - s.unread.length - min count s.feed.bytes.length := by
    rw [Nat.sub_sub, ← List.length_take, ← List.length_append]
    rfl
  have hremains : t.feed.bytes.length =
      s.feed.bytes.length - min count s.feed.bytes.length := by
    rw [show t.feed.bytes = s.feed.bytes.drop count from rfl, List.length_drop]
    omega
  rw [hwanted, hremains]
  exact Feed.ShowsHead.cons_iff (Nat.sub_le_sub_right hn _) hleft

/-- A look ahead is interrupted, unless it is over before the interruption. -/
theorem fill_interrupted {sizes : List Nat} {more : List Delivery}
    (hsizes : ∀ size ∈ sizes, 0 < size) (hn : n ≤ s.capacity)
    (hscript : s.feed.script = sizes.map .upTo ++ .interrupted :: more) :
    let shows := Feed.ShowsHead (n - s.unread.length) s.feed.bytes.length sizes
    (shows → ∃ s', fill n s.feed.script s = .ok () s' ∧ Looked n s s') ∧
    (¬ shows → ∃ s', fill n s.feed.script s = .error (.io .interrupted) s') := by
  induction sizes generalizing s with
  | nil =>
    intro shows
    by_cases hle : n ≤ s.unread.length
    · exact ⟨fun _ => ⟨s, fill_of_le hle _, .of_le hle⟩,
        fun hnot => absurd (Feed.ShowsHead.of_le hle) hnot⟩
    · rw [hscript, List.map_nil, List.nil_append, fill, if_neg hle]
      exact ⟨fun hshows => absurd hshows (Feed.ShowsHead.not_nil (by omega)), fun _ => ⟨_, rfl⟩⟩
  | cons size sizes ih =>
    rw [List.forall_mem_cons] at hsizes
    obtain ⟨hsize, hsizes⟩ := hsizes
    intro shows
    by_cases hle : n ≤ s.unread.length
    · exact ⟨fun _ => ⟨s, fill_of_le hle _, .of_le hle⟩,
        fun hnot => absurd (Feed.ShowsHead.of_le hle) hnot⟩
    have hmem : ∀ d ∈ sizes.map Delivery.upTo ++ .interrupted :: more, d ∈ s.feed.script := by
      intro d hd
      rw [hscript]
      exact List.mem_cons_of_mem _ hd
    rw [hscript, List.map_cons, List.cons_append, fill, if_neg hle]
    dsimp only
    split
    · -- A delivery of nothing, though there is room: nothing is to come.
      rename_i hempty
      have hnil : s.feed.bytes = [] :=
        (List.take_eq_nil_iff.mp (List.isEmpty_iff.mp hempty)).resolve_left (by omega)
      have hshows : shows := by
        show Feed.ShowsHead _ s.feed.bytes.length _
        rw [hnil]
        exact .ended
      exact ⟨fun _ => ⟨_, rfl, .of_ended hnil hmem⟩, fun hnot => absurd hshows hnot⟩
    · rename_i hsome
      have hleft : s.feed.bytes.length ≠ 0 := by
        intro hzero
        rw [List.length_eq_zero_iff.mp hzero, List.take_nil] at hsome
        exact hsome rfl
      let t := s.receive (min size (s.capacity - s.unread.length))
        (sizes.map .upTo ++ .interrupted :: more)
      have hshows : shows ↔ Feed.ShowsHead (n - t.unread.length) t.feed.bytes.length sizes :=
        showsHead_receive_iff hn hleft
      obtain ⟨hlooks, hstops⟩ := ih (s := t) hsizes hn rfl
      refine ⟨fun h => ?_, fun h => hstops (mt hshows.mpr h)⟩
      obtain ⟨s', hfill, hlooked⟩ := hlooks (hshows.mp h)
      exact ⟨s', hfill, hlooked.of_receive hmem⟩

/-- What is seen ahead by a stream that is interrupted. -/
theorem peek_interrupted (bytes : List UInt8) {sizes : List Nat} {more : List Delivery}
    (hsizes : ∀ size ∈ sizes, 0 < size) (hmore : ∀ d ∈ more, d.Steady) (bufferSize : Nat)
    (hn : n ≤ 4) :
    let s := ofFeed ⟨bytes, sizes.map .upTo ++ .interrupted :: more⟩ bufferSize
    let shows := Feed.ShowsHead n bytes.length sizes
    (shows → ∃ s', s.peek n = .ok (bytes.take n) s' ∧ s'.Yields bytes 0) ∧
    (¬ shows → ∃ s', s.peek n = .error (.io .interrupted) s') := by
  intro s shows
  have hroom : n ≤ s.capacity := Nat.le_trans hn (Nat.le_max_right ..)
  obtain ⟨hlooks, hstops⟩ := fill_interrupted (s := s) hsizes hroom rfl
  rw [peek, Nat.min_eq_left hroom]
  refine ⟨fun h => ?_, fun h => ?_⟩
  · obtain ⟨s', hfill, hlooked⟩ := hlooks h
    rw [hfill]
    dsimp only
    rw [hlooked.shown]
    refine ⟨s', rfl, ⟨fun d hd => ?_, ?_⟩, hlooked.rest, hlooked.position⟩
    · have hd := hlooked.script d hd
      simp only [s, ofFeed, List.mem_append, List.mem_map, List.mem_cons] at hd
      rcases hd with ⟨size, hsize, rfl⟩ | rfl | hd
      · exact hsizes size hsize
      · trivial
      · exact hmore d hd
    · rw [hlooked.capacity]
      exact .inl (Nat.lt_of_lt_of_le (Nat.succ_pos 3) (Nat.le_max_right ..))
  · obtain ⟨s', hfill⟩ := hstops h
    rw [hfill]
    exact ⟨s', rfl⟩

end Source

namespace Outcome

variable {bytes : List UInt8} {f : Format} {o : ReadOptions} {judge : Judge}

/-- Streams of the same bytes come to the same once their head has been seen. -/
theorem ofReader_start_eq {s s' : Source}
    (hpeek : ∃ t, s.peek 4 = .ok (bytes.take 4) t ∧ t.Yields bytes 0)
    (hpeek' : ∃ t, s'.peek 4 = .ok (bytes.take 4) t ∧ t.Yields bytes 0) :
    ofReader judge (Reader.start s none f o) = ofReader judge (Reader.start s' none f o) := by
  by_cases hv : o.strategy.getD .decode = .view
  · -- No stream serves views.
    have hfails : ∀ {s : Source}, (∃ t, s.peek 4 = .ok (bytes.take 4) t ∧ t.Yields bytes 0) →
        Reader.start s none f o = .error .viewOfStream := by
      rintro s ⟨t, ht, hyields⟩
      obtain ⟨u, hu, -⟩ := hyields.skip (f.encoding.resolve (bytes.take 4)).2
      rw [Reader.start, ht]
      dsimp only
      rw [hu, hv]
      rfl
    rw [hfails hpeek, hfails hpeek']
  · obtain ⟨r, r', hr, hr', hal⟩ := Reader.start_alike none none f hv hpeek hpeek'
    rw [hr, hr']
    exact hal.outcome_eq trivial id

end Outcome

/-- A stream that is interrupted reads like the same one without
interruptions, if its head is seen before the first of them.  If it is not,
the read fails with the interruption, whatever the input. -/
theorem readFeed_interrupted {bytes : List UInt8} {sizes : List Nat} {more : List Delivery}
    {f : Format} {o : ReadOptions} (judge : Judge) (hsizes : ∀ size ∈ sizes, 0 < size)
    (hmore : ∀ d ∈ more, d.Steady) :
    readFeed ⟨bytes, sizes.map .upTo ++ .interrupted :: more⟩ f o judge =
      if Feed.ShowsHead 4 bytes.length sizes then
        readFeed ⟨bytes, sizes.map .upTo ++ more.filter (· ≠ .interrupted)⟩ f o judge
      else .failed (.io .interrupted) := by
  obtain ⟨hlooks, hstops⟩ :=
    Source.peek_interrupted bytes hsizes hmore o.bufferSize (Nat.le_refl 4)
  split
  · rename_i hshows
    -- Without interruptions every request is met.
    have hcalm : ∀ d ∈ sizes.map Delivery.upTo ++ more.filter (· ≠ .interrupted),
        ∃ count, d = .upTo (count + 1) := by
      intro d hd
      rcases List.mem_append.mp hd with hd | hd
      · obtain ⟨size, hsize, rfl⟩ := List.mem_map.mp hd
        exact ⟨size - 1, by rw [Nat.sub_add_cancel (hsizes size hsize)]⟩
      · obtain ⟨hd, hne⟩ := List.mem_filter.mp hd
        exact (hmore d hd).upTo (of_decide_eq_true hne)
    exact Outcome.ofReader_start_eq (hlooks hshows) (Source.peek_ofFeed hcalm o.bufferSize)
  · rename_i hshows
    obtain ⟨s', hpeek⟩ := hstops hshows
    rw [readFeed, Reader.ofFeed, Reader.start, hpeek]
    rfl

/-- A text of three bytes is known to be all there is once nothing more has
come, and may be interrupted after that. -/
theorem readFeed_interrupted_shown :
    let bytes : List UInt8 := [0x61, 0x2C, 0x62]
    let sizes := [2, 5, 1]
    let more : List Delivery := [.interrupted, .upTo 1]
    (∀ size ∈ sizes, 0 < size) ∧ (∀ d ∈ more, d.Steady) ∧ Feed.ShowsHead 4 bytes.length sizes ∧
      readFeed ⟨bytes, sizes.map .upTo ++ .interrupted :: more⟩ .csv {} .always =
        readFeed ⟨bytes, sizes.map .upTo ++ [.upTo 1]⟩ .csv {} .always := by
  intro bytes sizes more
  have hsizes : ∀ size ∈ sizes, 0 < size := by decide
  have hmore : ∀ d ∈ more, d.Steady := by simp [more, Delivery.Steady]
  have hshows : Feed.ShowsHead 4 bytes.length sizes := by decide
  refine ⟨hsizes, hmore, hshows, ?_⟩
  rw [readFeed_interrupted .always hsizes hmore, if_pos hshows]
  rfl

/-- The same text, interrupted before anything has come. -/
example :
    (readFeed ⟨[0x61, 0x2C, 0x62], [.interrupted]⟩ .csv {} .always).result.toOption = none := by
  decide

end Tabular
