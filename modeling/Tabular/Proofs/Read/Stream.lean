/-
A stream reads like its text in memory.

* `Source.Alike` — two steady sources with the same bytes to come;
* `Units.Alike.nextChar`, `Chars.Alike.next` — the same units and characters
  come of them;
* `Likeness.sources` — so readers of them are alike;
* `readFeed_eq` — and a stream read with any buffer comes to the same as its
  text read character by character.
-/
import Tabular.Proofs.Input.Steady
import Tabular.Proofs.Read.Alike
import Tabular.Proofs.Read.Start
import Tabular.Read.Whole

namespace Tabular

/-- Two steady sources have the same bytes to come, and have read as many. -/
def Source.Alike (s s' : Source) : Prop :=
  ∃ bytes position, s.Yields bytes position ∧ s'.Yields bytes position

namespace Units

/-- Units of sources that are alike. -/
structure Alike (u u' : Units) : Prop where
  source : u.source.Alike u'.source
  encoding : u.encoding = u'.encoding
  pushed : u.pushed = u'.pushed

namespace Alike

variable {u u' : Units}

theorem position (h : u.Alike u') : u.position = u'.position := by
  obtain ⟨bytes, p, hs, hs'⟩ := h.source
  rw [Units.position, Units.position, hs.position, hs'.position, h.encoding, h.pushed]

theorem next (h : u.Alike u') : Attempt.Alike Alike u.next u'.next := by
  obtain ⟨source, e, pushed⟩ := u
  obtain ⟨source', e', pushed'⟩ := u'
  obtain ⟨⟨bytes, p, hs, hs'⟩, rfl, rfl⟩ := h
  rw [Units.next, Units.next]
  cases pushed with
  | some unit => exact .ok ⟨⟨bytes, p, hs, hs'⟩, rfl, rfl⟩
  | none =>
    obtain ⟨t, ht, hyields⟩ := hs.nextBytes e.unitWidth
    obtain ⟨t', ht', hyields'⟩ := hs'.nextBytes e.unitWidth
    dsimp only
    rw [ht, ht']
    cases bytes.take e.unitWidth <;> exact .ok ⟨⟨_, _, hyields, hyields'⟩, rfl, rfl⟩

theorem finish (h : u.Alike u') (v : Unfinished) :
    Attempt.Alike Alike (u.finish v) (u'.finish v) := by
  fun_induction Units.finish v u generalizing u' with
  | case1 v u e t ht =>
    obtain ⟨t', ht', hal⟩ := (ht ▸ h.next).of_error
    rw [Units.finish, ht']
    exact .error hal
  | case2 v u t ht =>
    obtain ⟨t', ht', hal⟩ := (ht ▸ h.next).of_ok
    rw [Units.finish, ht']
    exact .ok hal
  | case3 v u unit t ht hfeed =>
    obtain ⟨t', ht', hal⟩ := (ht ▸ h.next).of_ok
    rw [Units.finish, ht']
    dsimp only
    rw [hfeed]
    exact .ok { hal with pushed := rfl }
  | case4 v u unit t ht c hfeed =>
    obtain ⟨t', ht', hal⟩ := (ht ▸ h.next).of_ok
    rw [Units.finish, ht']
    dsimp only
    rw [hfeed]
    exact .ok hal
  | case5 v u unit t ht v' hfeed ih =>
    obtain ⟨t', ht', hal⟩ := (ht ▸ h.next).of_ok
    have hgoes : u'.finish v = t'.finish v' := by
      rw [Units.finish, ht']
      dsimp only
      rw [hfeed]
    exact hgoes ▸ ih hal

theorem nextChar (h : u.Alike u') : Attempt.Alike Alike u.nextChar u'.nextChar := by
  rw [Units.nextChar, Units.nextChar]
  cases hn : u.next with
  | error e t =>
    obtain ⟨t', hn', hal⟩ := (hn ▸ h.next).of_error
    rw [hn']
    exact .error hal
  | ok unit t =>
    obtain ⟨t', hn', hal⟩ := (hn ▸ h.next).of_ok
    rw [hn']
    cases unit with
    | none => exact .ok hal
    | some unit =>
      dsimp only
      rw [← hal.encoding]
      cases Decode.start t.encoding unit with
      | char c => exact .ok hal
      | more v =>
        have hfinish := hal.finish v
        dsimp only
        cases hf : t.finish v with
        | error e w =>
          obtain ⟨w', hf', hal'⟩ := (hf ▸ hfinish).of_error
          rw [hf']
          exact .error hal'
        | ok c w =>
          obtain ⟨w', hf', hal'⟩ := (hf ▸ hfinish).of_ok
          rw [hf']
          exact .ok hal'

theorem nextRaw (h : u.Alike u') : Attempt.Alike Alike u.nextRaw u'.nextRaw := by
  rw [Units.nextRaw, Units.nextRaw]
  cases hn : u.next with
  | error e t =>
    obtain ⟨t', hn', hal⟩ := (hn ▸ h.next).of_error
    rw [hn']
    exact .error hal
  | ok unit t =>
    obtain ⟨t', hn', hal⟩ := (hn ▸ h.next).of_ok
    rw [hn']
    cases unit <;> exact .ok hal

theorem readChar (h : u.Alike u') (s : Strategy) :
    Attempt.Alike Alike (u.readChar s) (u'.readChar s) := by
  cases s with
  | raw => exact h.nextRaw
  | decode | view | discard => exact h.nextChar

theorem scan (h : u.Alike u') (s : Strategy) : Attempt.Alike Alike (u.scan s) (u'.scan s) := by
  rw [Units.scan, Units.scan, ← h.position]
  cases hr : u.readChar s with
  | error e t =>
    obtain ⟨t', hr', hal⟩ := (hr ▸ h.readChar s).of_error
    rw [hr']
    exact .error hal
  | ok c t =>
    obtain ⟨t', hr', hal⟩ := (hr ▸ h.readChar s).of_ok
    rw [hr']
    cases c with
    | none => exact .ok hal
    | some c =>
      dsimp only
      rw [← hal.position]
      exact .ok hal

end Alike

end Units

namespace Chars

/-- Characters of sources that are alike. -/
structure Alike (cs cs' : Chars) : Prop where
  units : cs.units.Alike cs'.units
  ahead : cs.ahead = cs'.ahead

namespace Alike

variable {cs cs' : Chars}

theorem position (h : cs.Alike cs') : cs.position = cs'.position := by
  rw [Chars.position, Chars.position, h.ahead, h.units.position]

theorem take (h : cs.Alike cs') (s : Strategy) : Attempt.Alike Alike (cs.take s) (cs'.take s) := by
  rw [Chars.take, Chars.take, ← h.ahead]
  cases hc : cs.ahead with
  | some c => exact .ok ⟨h.units, rfl⟩
  | none =>
    dsimp only
    cases hs : cs.units.scan s with
    | error e u =>
      obtain ⟨u', hs', hal⟩ := (hs ▸ h.units.scan s).of_error
      rw [hs']
      exact .error ⟨hal, rfl⟩
    | ok c u =>
      obtain ⟨u', hs', hal⟩ := (hs ▸ h.units.scan s).of_ok
      rw [hs']
      exact .ok ⟨hal, rfl⟩

theorem next (h : cs.Alike cs') (s : Strategy) (folds : Bool) :
    Attempt.Alike Alike (cs.next s folds) (cs'.next s folds) := by
  rw [Chars.next, Chars.next]
  cases ht : cs.take s with
  | error e t =>
    obtain ⟨t', ht', hal⟩ := (ht ▸ h.take s).of_error
    rw [ht']
    exact .error hal
  | ok c t =>
    obtain ⟨t', ht', hal⟩ := (ht ▸ h.take s).of_ok
    rw [ht']
    cases c with
    | none => exact .ok hal
    | some c =>
      dsimp only
      split
      · -- A look is taken at the character after a carriage return.
        cases hs : t.units.scan s with
        | error e u =>
          obtain ⟨u', hs', hal'⟩ := (hs ▸ hal.units.scan s).of_error
          rw [hs']
          exact .error ⟨hal', hal.ahead⟩
        | ok d u =>
          obtain ⟨u', hs', hal'⟩ := (hs ▸ hal.units.scan s).of_ok
          rw [hs']
          cases d with
          | none => exact .ok ⟨hal', hal.ahead⟩
          | some d =>
            dsimp only
            split
            · exact .ok ⟨hal', hal.ahead⟩
            · exact .ok ⟨hal', rfl⟩
      · exact .ok hal

end Alike

end Chars

/-- Readers of sources that are alike, which know the same and keep no
views. -/
def Likeness.sources : Likeness where
  chars := Chars.Alike
  dialects := (· = ·)
  allows _ := True
  shares := False
  next h := h.next
  position h := h.position
  encoding h := h.units.encoding
  allows_of_learns _ h := h
  folds h := congrArg Dialect.folds h
  trims h := congrArg Dialect.trims h
  goesOn h ht := h ▸ ht
  terminates h ht _ := ⟨_, h ▸ ht, rfl⟩
  isNaked h ho := h ▸ ho
  opens h ho _ := ⟨_, h ▸ ho, rfl⟩

namespace Reader

variable {bytes : List UInt8} {f : Format} {o : ReadOptions} {judge : Judge} {r r' : Reader}

/-- Two readers start alike, on the same bytes. -/
theorem start_alike {s s' : Source} (viewed viewed' : Option (List UInt8)) (f : Format)
    (hv : o.strategy.getD .decode ≠ .view)
    (hpeek : ∃ t, s.peek 4 = .ok (bytes.take 4) t ∧ t.Yields bytes 0)
    (hpeek' : ∃ t, s'.peek 4 = .ok (bytes.take 4) t ∧ t.Yields bytes 0) :
    ∃ r r', start s viewed f o = .ok r ∧ start s' viewed' f o = .ok r' ∧
      r.Alike .sources r' := by
  obtain ⟨t, ht, hyields⟩ := hpeek
  obtain ⟨t', ht', hyields'⟩ := hpeek'
  obtain ⟨u, hu, hskip⟩ := hyields.skip (f.encoding.resolve (bytes.take 4)).2
  obtain ⟨u', hu', hskip'⟩ := hyields'.skip (f.encoding.resolve (bytes.take 4)).2
  have hcheck : ∀ e inMemory, (o.strategy.getD .decode).check f e inMemory = .ok () := by
    intro e inMemory
    rw [Strategy.check, if_pos hv]
  rw [start, start, ht, ht']
  dsimp only
  rw [hu, hu', hcheck, hcheck]
  refine ⟨_, _, rfl, rfl, ?_⟩
  exact {
    chars := ⟨⟨⟨_, _, hskip, hskip'⟩, rfl, rfl⟩, rfl⟩
    dialect := rfl
    strategy := rfl
    buffer := rfl
    viewed := False.elim
    unviewed := fun _ => ⟨hv, rfl⟩
    phase := rfl
    progress := rfl
    accounted := rfl
    handed := rfl }

end Reader

/-- A stream that is read with any buffer, and comes in pieces of any size,
comes to the same as its text read character by character. -/
theorem readFeed_eq {bytes : List UInt8} {sizes : List Nat} {f : Format} {o : ReadOptions}
    (judge : Judge) (hsizes : ∀ size ∈ sizes, 0 < size) (hv : o.strategy ≠ some .view) :
    readFeed ⟨bytes, sizes.map .upTo⟩ f o judge =
      readBytes bytes f { o with characterwise := true } judge := by
  have hscript : ∀ d ∈ sizes.map Delivery.upTo, ∃ count, d = .upTo (count + 1) := by
    rw [List.forall_mem_map]
    exact fun size hsize => ⟨size - 1, by rw [Nat.sub_add_cancel (hsizes size hsize)]⟩
  have hfeed : (Source.ofFeed ⟨bytes, sizes.map .upTo⟩ o.bufferSize).Yields bytes 0 := by
    refine Source.yields_ofFeed ?_ o.bufferSize
    rw [List.forall_mem_map]
    exact hsizes
  have hstrategy : o.strategy.getD .decode ≠ .view := by
    cases hs : o.strategy with
    | none => simp
    | some s => simpa [hs] using hv
  obtain ⟨r, r', hr, hr', hal⟩ := Reader.start_alike none (some bytes) f hstrategy
    (hfeed.peek hscript (Nat.le_max_right ..))
    ⟨_, Source.peek_ofBytes 4 bytes, Source.yields_ofBytes bytes⟩
  have hbytes : readBytes bytes f { o with characterwise := true } judge =
      .ofReader judge (Reader.ofBytes bytes f o) := rfl
  rw [hbytes, readFeed, Reader.ofFeed, Reader.ofBytes, hr, hr']
  exact hal.outcome_eq trivial id

/-- A text in pieces that part its byte order mark, a character, a doubled
quote and CR LF. -/
theorem readFeed_eq_parted :
    let bytes : List UInt8 := [0xEF, 0xBB, 0xBF, 0x22, 0xC3, 0xA9, 0x22, 0x22, 0x22, 0x0D, 0x0A]
    let sizes := [1, 2, 2, 2, 3]
    (∀ size ∈ sizes, 0 < size) ∧ ({ bufferSize := 0 } : ReadOptions).strategy ≠ some .view ∧
      readFeed ⟨bytes, sizes.map .upTo⟩ .csv { bufferSize := 0 } .always =
        readBytes bytes .csv { bufferSize := 0, characterwise := true } .always := by
  intro bytes sizes
  have hsizes : ∀ size ∈ sizes, 0 < size := by decide
  exact ⟨hsizes, by decide, readFeed_eq .always hsizes (by decide)⟩

end Tabular
