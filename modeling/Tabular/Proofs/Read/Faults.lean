/-
Streams that fail.

* `Reader.AfterRows` — a reader after so many rows, none of which failed;
* `Reader.exists_afterRows` — a read that fails does so in the row after some;
* `Reader.StandsAt` — a reader that has read a text up to some offset;
* `readFeed_failing` — a stream that fails hands over what comes first of what
  it would have, and accounts for the rows before the failure.

Design notes: what a character that is read ahead was read from is still to
come.  So a reader stands where its last row ended, though it may have looked
past that.
-/
import Tabular.Proofs.Read.Mended
import Tabular.Proofs.Read.Standing
import Tabular.Proofs.Read.Stream

namespace Tabular

namespace Reader

variable {r s t : Reader} {judge : Judge} {row rows : Nat} {f : Format} {o : ReadOptions}

/-! ### The account -/

/-- A row that is read brings the account up to date. -/
theorem account_readRow {found : Bool} (h : r.readRow judge row = .ok found t) :
    t.progress = r.progress + (t.position - r.accounted) ∧ t.accounted = t.position := by
  rw [readRow] at h
  split at h
  · simp at h
  · rename_i hc
    obtain ⟨cells, hpart⟩ := rowPart_readCells hc
    obtain ⟨rfl, rfl⟩ := EStateM.Result.ok.inj h
    rw [← hpart.progress, ← hpart.accounted]
    exact ⟨rfl, rfl⟩

/-- A row that fails leaves the account as it was. -/
theorem progress_readRow_error {e : Error} (h : r.readRow judge row = .error e t) :
    t.progress = r.progress := by
  rw [readRow] at h
  split at h
  · rename_i hc
    obtain ⟨cells, hpart⟩ := rowPart_readCells hc
    obtain ⟨rfl, rfl⟩ := EStateM.Result.error.inj h
    exact hpart.progress
  · simp at h

/-! ### Rows before a failure -/

/-- That many rows have been read, of which none failed and none was the
last. -/
inductive AfterRows (judge : Judge) (r : Reader) : Nat → Reader → Prop
  | zero : AfterRows judge r 0 r
  | succ {rows : Nat} {s t : Reader} (h : AfterRows judge r rows s) (hf : s.phase.isFinal = false)
      (hrow : s.readRow judge rows = .ok true t) : AfterRows judge r (rows + 1) t

/-- Where there was nothing of a row the input has ended. -/
theorem phase_of_readCells_false {column : Nat} {mode : LineMode}
    (h : r.readCells judge row column mode = .ok false t) : t.phase = .inputEnd := by
  fun_induction readCells judge row column mode r with
  | case1 => simp at h
  | case2 column mode r ending s hs he =>
    obtain ⟨-, rfl⟩ := EStateM.Result.ok.inj h
    rw [readCell_phase hs, he.1]
    rfl
  | case3 => simp at h
  | case4 column mode r s p hp hs he ih => exact ih h
  | case5 => simp at h

theorem phase_of_readRow_false (h : r.readRow judge row = .ok false t) : t.phase = .inputEnd := by
  rw [readRow] at h
  split at h
  · simp at h
  · rename_i hc
    obtain ⟨rfl, rfl⟩ := EStateM.Result.ok.inj h
    exact (phase_of_readCells_false hc :)

/-- A read that fails does so in the row after some that were read. -/
theorem exists_afterRows {e : Error} (hr : r.AfterRows judge row s)
    (h : s.readRows judge row = .error e t) :
    ∃ rows s', r.AfterRows judge rows s' ∧ s'.phase.isFinal = false ∧
      s'.readRow judge rows = .error e t := by
  fun_induction readRows judge row s with
  | case1 => simp at h
  | case2 row s hf e' u hu =>
    obtain ⟨rfl, rfl⟩ := EStateM.Result.error.inj h
    exact ⟨row, s, hr, by simpa using hf, hu⟩
  | case3 row s hf found u hu ih =>
    cases found with
    | true => exact ih (hr.succ (by simpa using hf) hu) h
    | false =>
      -- The input ended before the row, and the read with it.
      rw [readRows, if_pos (by rw [phase_of_readRow_false hu]; rfl)] at h
      simp at h

/-! ### Where rows end -/

/-- The reader stands at that offset of a text: it has read the units before it
and none of those after it, except to look ahead. -/
def StandsAt (r : Reader) (f : Format) (bytes : List UInt8) (offset : Nat) : Prop :=
  let (e, start) := f.encoding.resolve (bytes.take 4)
  ∃ n, r.chars.Awaits ((e.unitsOf (bytes.drop start)).drop n) ∧
    offset = e.unitOffset start (bytes.drop start) n

theorem lineEnd_of_terminator {d d' : Dialect} {c : Char}
    (h : d.terminator? c = some (.lineEnd, d')) : d'.lineEnd = .char c := by
  rw [Dialect.terminator?] at h
  split_ifs at h
  · simp at h
  · obtain ⟨-, rfl⟩ := Prod.mk.inj (Option.some.inj h)
    rfl

/-- A row that is read ends no earlier than where the reader stood before it.
Unless U+FFFD ends it, no unit has been put back after it. -/
theorem stands_readRow {e : Encoding} {start n : Nat} {bytes : List UInt8} {found : Bool}
    (hs : s.mended.chars.Stands e start bytes n) (hrow : s.readRow judge row = .ok found t)
    (hp : t.phase.isFinal = false) :
    ∃ m, n ≤ m ∧ t.mended.chars.Stands e start bytes m ∧
      (t.mended.chars.Settled ∨ t.dialect.lineEnd = .char replacement) := by
  have hmended := readRow_mended judge row s
  rw [hrow] at hmended
  obtain ⟨c, hleft, d, x, rfl, hx⟩ :=
    leftBy_readRow Chars.keeps_stands hmended ⟨n, Nat.le_refl n, hs⟩ hp
  obtain ⟨m, hle, hm⟩ := hleft.keeps Chars.keeps_stands
  refine ⟨m, hle, hm, ?_⟩
  by_cases hc : x.char = replacement
  · exact .inr (hc ▸ lineEnd_of_terminator hx)
  · exact .inl (hleft.settled hc)

/-- Rows that are read without a failure are accounted for up to where the last
of them ends. -/
theorem AfterRows.stands {e : Encoding} {start : Nat} {bytes : List UInt8}
    (hends : e.BreaksOff bytes → r.dialect.lineEnd ≠ .char replacement)
    (h : r.AfterRows judge rows t) (hr : r.mended.chars.Stands e start bytes 0)
    (hsettled : r.mended.chars.Settled) (hp : r.progress = 0) (ha : r.accounted = 0)
    (hf : t.phase.isFinal = false) :
    ∃ n, t.mended.chars.Stands e start bytes n ∧ t.position = e.unitOffset start bytes n ∧
      r.dialect.LearnsTo t.dialect ∧ t.progress = t.accounted ∧ t.accounted ≤ t.position ∧
      (rows ≠ 0 → t.progress = t.position) := by
  induction h with
  | zero =>
    exact ⟨0, hr, hr.position (.inl hsettled), .refl _, hp.trans ha.symm, ha ▸ Nat.zero_le _,
      fun h => absurd rfl h⟩
  | succ h hgoes hrow ih =>
    rename_i rows s t
    obtain ⟨n, hs, hposition, hlearns, hps, has, -⟩ := ih hgoes
    obtain ⟨m, hle, hm, hsettled'⟩ := stands_readRow hs hrow hf
    have hlearns' := hlearns.trans (learns_readRow hrow :)
    have hposition' : t.position = e.unitOffset start bytes m := by
      refine hm.position (hsettled'.imp_right fun hlineEnd hbreak => hends hbreak ?_)
      exact hlearns'.lineEnd.of_replacement (by decide) hlineEnd
    obtain ⟨hprogress, haccounted⟩ := account_readRow hrow
    have hforth : s.position ≤ t.position := by
      rw [hposition, hposition']
      exact Encoding.unitOffset_mono hle
    have hpt : t.progress = t.position := by
      rw [hprogress, hps, Nat.add_sub_cancel' (Nat.le_trans has hforth)]
    exact ⟨m, hm, hposition', hlearns', hpt.trans haccounted.symm, Nat.le_of_eq haccounted,
      fun _ => hpt⟩

theorem standsAt_of_stands {e : Encoding} {start n : Nat} {bytes : List UInt8}
    (hr : f.encoding.resolve (bytes.take 4) = (e, start))
    (h : t.mended.chars.Stands e start (bytes.drop start) n)
    (hposition : t.position = e.unitOffset start (bytes.drop start) n) :
    t.StandsAt f bytes t.position := by
  rw [StandsAt, hr]
  exact ⟨n, h.awaits, hposition⟩

/-! ### The start -/

/-- What a read begins with. -/
theorem start_ok {source : Source} {viewed : Option (List UInt8)}
    (h : start source viewed f o = .ok r) :
    ∃ head s t, source.peek 4 = .ok head s ∧ s.skip (f.encoding.resolve head).2 = .ok () t ∧
      (o.strategy.getD .decode).check f (f.encoding.resolve head).1 viewed.isSome = .ok () ∧
      r = fresh ⟨.ofSource t (f.encoding.resolve head).1, none⟩ f o (viewed.getD []) := by
  rw [start] at h
  cases hp : source.peek 4 with
  | error e s => simp [hp] at h
  | ok head s =>
    rw [hp] at h
    dsimp only at h
    cases hs : s.skip (f.encoding.resolve head).2 with
    | error e t => simp [hs] at h
    | ok u t =>
      rw [hs] at h
      dsimp only at h
      cases hc : (o.strategy.getD .decode).check f (f.encoding.resolve head).1 viewed.isSome with
      | error e => simp [hc, bind, Except.bind] at h
      | ok u =>
        rw [hc] at h
        exact ⟨head, s, t, rfl, hs, hc, (Except.ok.inj h).symm⟩

theorem start_eq_ok {source s t : Source} {viewed : Option (List UInt8)} {head : List UInt8}
    (hp : source.peek 4 = .ok head s) (hs : s.skip (f.encoding.resolve head).2 = .ok () t)
    (hc : (o.strategy.getD .decode).check f (f.encoding.resolve head).1 viewed.isSome = .ok ()) :
    start source viewed f o =
      .ok (fresh ⟨.ofSource t (f.encoding.resolve head).1, none⟩ f o (viewed.getD [])) := by
  rw [start, hp]
  dsimp only
  rw [hs]
  dsimp only
  rw [hc]
  rfl

theorem ofFeed_mended {feed : Feed} (h : ofFeed feed f o = .ok r) :
    ofFeed feed.mended f o = .ok r.mended := by
  obtain ⟨head, s, t, hp, hs, hc, rfl⟩ := start_ok h
  exact start_eq_ok (Source.peek_mended hp) (Source.skip_mended hs) hc

/-- A stream that goes on delivering is read from its first byte on. -/
theorem yields_of_ofFeed {feed : Feed} (h : ofFeed feed f o = .ok r)
    (hs : ∀ d ∈ feed.script, ∃ count, d = .upTo (count + 1)) {e : Encoding} {start : Nat}
    (hr : f.encoding.resolve (feed.bytes.take 4) = (e, start)) :
    ∃ source : Source, source.Yields (feed.bytes.drop start) start ∧
      r.chars = ⟨.ofSource source e, none⟩ := by
  obtain ⟨s, hpeek, hyields⟩ := Source.peek_ofFeed hs o.bufferSize
  obtain ⟨t, hskip, hyields⟩ := hyields.skip start
  obtain ⟨head, s', t', hp, hs, -, rfl⟩ := start_ok h
  obtain ⟨rfl, rfl⟩ := EStateM.Result.ok.inj (hp.symm.trans hpeek)
  rw [hr] at hs ⊢
  obtain ⟨-, rfl⟩ := EStateM.Result.ok.inj (hs.symm.trans hskip)
  refine ⟨t', ?_, rfl⟩
  rwa [Nat.min_eq_left (Encoding.start_le_of_resolve hr), Nat.zero_add] at hyields

/-! ### Streams -/

/-- The read of a stream that goes on delivering comes to its end. -/
theorem exists_summary_of_ofFeed {feed : Feed} (h : ofFeed feed f o = .ok r)
    (hs : ∀ d ∈ feed.script, ∃ count, d = .upTo (count + 1)) (judge : Judge) :
    ∃ s, (r.outcome judge).result = .ok s := by
  obtain ⟨source, hyields, hchars⟩ := yields_of_ofFeed h hs rfl
  have hruns : ∃ stop, r.chars.units.Runs stop := by
    rw [hchars]
    exact ⟨_, ⟨_, _, hyields, rfl⟩, by simp [Units.ofSource]⟩
  obtain ⟨stop, hruns⟩ := hruns
  rw [outcome, read]
  cases hrows : r.readRows judge 0 with
  | ok rows t => exact ⟨_, rfl⟩
  | error e t => exact (succeeds_readRows (Chars.keeps_runs stop) hrows hruns :).elim

/-- A row that fails leaves an account of the rows before it, up to where the
last of them ends. -/
theorem account_of_ofFeed {feed : Feed} (h : ofFeed feed f o = .ok r)
    (hs : ∀ d ∈ feed.mended.script, ∃ count, d = .upTo (count + 1))
    (hends : f.BreaksOff feed.bytes → f.lineEnd ≠ .char replacement)
    (hafter : r.AfterRows judge rows s) (hf : s.phase.isFinal = false) {e : Error}
    (hrow : s.readRow judge rows = .error e t) :
    if rows = 0 then t.progress = 0 else s.StandsAt f feed.bytes t.progress := by
  obtain ⟨e, start, hr⟩ : ∃ e start, f.encoding.resolve (feed.bytes.take 4) = (e, start) :=
    ⟨_, _, rfl⟩
  obtain ⟨source, hyields, hchars⟩ := yields_of_ofFeed (ofFeed_mended h) hs hr
  have hstands : r.mended.chars.Stands e start (feed.bytes.drop start) 0 := by
    rw [hchars]
    exact (Units.Past.ofSource hyields e).toReached
  have hsettled : r.mended.chars.Settled := by
    rw [hchars]
    exact .inr rfl
  obtain ⟨_, _, _, _, _, _, hfresh⟩ := start_ok h
  rw [Format.BreaksOff, hr] at hends
  have hends' : e.BreaksOff (feed.bytes.drop start) → r.dialect.lineEnd ≠ .char replacement := by
    rw [hfresh]
    exact hends
  obtain ⟨n, hn, hat, -, -, -, hposition⟩ := hafter.stands hends' hstands hsettled
    (by rw [hfresh]; rfl) (by rw [hfresh]; rfl) hf
  rw [progress_readRow_error hrow]
  split
  · rename_i hzero
    subst hzero
    cases hafter
    rw [hfresh]
    rfl
  · rename_i hne
    rw [hposition hne]
    exact standsAt_of_stands hr hn hat

/-- What was handed over by the end of a read. -/
theorem handed_outcome (judge : Judge) (r : Reader) :
    (r.outcome judge).handed = (r.readRows judge 0).state.handed.reverse := by
  rw [outcome, read]
  cases r.readRows judge 0 <;> rfl

end Reader

/-- A stream that fails hands over what comes first of what it would without
its failures.  If it fails after its start, that is in the row after some that
were read, and these are accounted for up to where the last of them ends.  Only
where its bytes break off, and U+FFFD is the line end, may they not be. -/
theorem readFeed_failing (feed : Feed) (f : Format) (o : ReadOptions) (judge : Judge) :
    let read := readFeed feed f o judge
    let mended := readFeed feed.mended f o judge
    read.handed <+: mended.handed ∧
    match read.result with
    | .ok _ => read = mended
    | .error e =>
      Reader.ofFeed feed f o = .error e ∧ read = .failed e ∨
      ∃ r rows t t', Reader.ofFeed feed f o = .ok r ∧ r.AfterRows judge rows t ∧
        t.readRow judge rows = .error e t' ∧ read.handed = t'.handed.reverse ∧
        ((∀ d ∈ feed.mended.script, ∃ count, d = .upTo (count + 1)) →
          (∃ s, mended.result = .ok s) ∧
          ((f.BreaksOff feed.bytes → f.lineEnd ≠ .char replacement) →
            if rows = 0 then read.progress = 0 else t.StandsAt f feed.bytes read.progress)) := by
  intro read mended
  have hread : read = .ofReader judge (Reader.ofFeed feed f o) := rfl
  have hmended : mended = .ofReader judge (Reader.ofFeed feed.mended f o) := rfl
  cases hstart : Reader.ofFeed feed f o with
  | error e =>
    rw [hread, hstart]
    exact ⟨List.nil_prefix, .inl ⟨rfl, rfl⟩⟩
  | ok r =>
    have hrows := Reader.readRows_mended judge 0 r
    rw [hread, hmended, hstart, Reader.ofFeed_mended hstart]
    dsimp only [Outcome.ofReader]
    constructor
    · rw [Reader.handed_outcome, Reader.handed_outcome]
      exact List.reverse_prefix.mpr hrows.handed
    · cases hrun : r.readRows judge 0 with
      | ok rows t =>
        rw [hrun] at hrows
        rw [Reader.outcome, Reader.read, hrun, Reader.outcome, Reader.read,
          show r.mended.readRows judge 0 = _ from hrows]
        rfl
      | error e t' =>
        have houtcome : r.outcome judge = ⟨t'.handed.reverse, .error e, t'.progress⟩ := by
          rw [Reader.outcome, Reader.read, hrun]
        obtain ⟨rows, t, hafter, hf, hrow⟩ := Reader.exists_afterRows .zero hrun
        rw [houtcome]
        exact .inr ⟨r, rows, t, t', rfl, hafter, hrow, rfl, fun hs =>
          ⟨Reader.exists_summary_of_ofFeed (Reader.ofFeed_mended hstart) hs judge,
            fun hends => Reader.account_of_ofFeed hstart hs hends hafter hf hrow⟩⟩

/-- A stream of UTF-16 that fails in its second line, which breaks off, after the
first cell of it. -/
theorem readFeed_failing_midway :
    let bytes : List UInt8 := [0x61, 0x00, 0x0A, 0x00, 0x63, 0x00, 0x2C, 0x00, 0x3D, 0xD8, 0x41]
    let f : Format := { Format.csv with encoding := .utf16le }
    let feed : Feed := ⟨bytes, [.upTo 6, .upTo 5, .failed "gone"]⟩
    let read := readFeed feed f {} .always
    let mended := readFeed feed.mended f {} .always
    (∀ d ∈ feed.mended.script, ∃ count, d = .upTo (count + 1)) ∧ f.BreaksOff bytes ∧
      f.lineEnd ≠ .char replacement ∧ read.result.toOption = none ∧
      read.handed <+: mended.handed ∧ (∃ s, mended.result = .ok s) ∧ read.progress = 4 ∧
      ∃ t : Reader, t.StandsAt f bytes 4 := by
  intro bytes f feed read mended
  have hscript : ∀ d ∈ feed.mended.script, ∃ count, d = .upTo (count + 1) := by
    simp [feed, Feed.mended, Delivery.mend, Delivery.fails]
  have hbreak : f.BreaksOff bytes := by
    refine ⟨by decide, 0xD83D, 0xFFFD, .surrogate 0xD83D, ⟨[0x61, 0x0A, 0x63, 0x2C], ?_⟩, rfl⟩
    decide +kernel
  have hends : f.lineEnd ≠ .char replacement := by decide
  have hfails : read.result.toOption = none := by decide +kernel
  have hprogress : read.progress = 4 := by decide +kernel
  have hstarts : (Reader.ofFeed feed f {}).toOption.isSome = true := by decide +kernel
  obtain ⟨hhanded, hread⟩ := readFeed_failing feed f {} .always
  split at hread
  · rename_i s hresult
    exact absurd hfails (by rw [show read.result = .ok s from hresult]; simp [Except.toOption])
  · rcases hread with ⟨hnone, -⟩ | ⟨r, rows, t, t', -, -, -, -, haccount⟩
    · rw [hnone] at hstarts
      exact absurd hstarts (by simp [Except.toOption])
    · obtain ⟨hsummary, hstands⟩ := haccount hscript
      have hstands := hstands fun _ => hends
      rw [show (readFeed feed f {} .always).progress = 4 from hprogress] at hstands
      split at hstands
      · exact absurd hstands (by decide)
      · exact ⟨hscript, hbreak, hends, hfails, hhanded, hsummary, hprogress, t, hstands⟩

/-- Where a text breaks off, the account may come short of the end of the last
row: the line end here is read from the four bytes up to a unit that does not
fit, and counts for three. -/
example :
    let bytes : List UInt8 := [0x61, 0x00, 0x3D, 0xD8, 0x41]
    let f : Format := { Format.csv with
      enclosing := .char '\uFFFD', lineEnd := .char '\uFFFD', encoding := .utf16le }
    (readFeed ⟨bytes, [.upTo 5, .upTo 1, .failed "gone"]⟩ f {} .always).progress = 3 := by
  decide +kernel

end Tabular
