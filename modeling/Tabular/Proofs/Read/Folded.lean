/-
Folding CR LF while a text is read, or before.

* `Encoding.resolve_joinPairs` — a byte order mark stays what it is when CR LF
  is joined, and so does what comes after it;
* `Strategy.joinPairs_scanned` — to join the bytes of a text is to join its
  characters;
* `Folded` — a text that has been folded, in a dialect that does not fold;
* `keepsStep_folded` — it is read in step with the text that is folded then;
* `readBytes_joinPairs` — so both come to the same cells.

Design notes: units that are broken become characters of their own, none of
which is a CR or a line feed.  It is enough that ASCII is never part of a longer
character.
-/
import Tabular.Proofs.Read.Folding
import Tabular.Proofs.Read.Parallel
import Tabular.Proofs.Read.Retold
import Tabular.Proofs.Read.Runs

namespace Tabular

/-! ### Bytes -/

/-- No byte of a mark is one of CR LF. -/
theorem ByteOrderMark.ne_of_mem_bytes (mark : ByteOrderMark) :
    ∀ b ∈ mark.bytes, b ≠ 13 ∧ b ≠ 10 := by
  cases mark <;> simp [bytes]

theorem ByteOrderMark.detect_joinPairs (bytes : List UInt8) :
    detect ((joinPairs 13 10 bytes).take 4) = detect (bytes.take 4) := by
  have hmark : ∀ mark : ByteOrderMark, mark.bytes.isPrefixOf ((joinPairs 13 10 bytes).take 4) =
      mark.bytes.isPrefixOf (bytes.take 4) := by
    intro mark
    rw [Bool.eq_iff_iff, List.isPrefixOf_iff_prefix, List.isPrefixOf_iff_prefix,
      List.prefix_take_iff, List.prefix_take_iff, prefix_joinPairs mark.ne_of_mem_bytes]
  simp only [detect, hmark]

theorem joinPairs_map_toNat (bytes : List UInt8) :
    (joinPairs 13 10 bytes).map UInt8.toNat = joinPairs 13 10 (bytes.map UInt8.toNat) :=
  (joinPairs_map (fun _ _ => UInt8.toNat_inj) fun _ _ => UInt8.toNat_inj).symm

/-- The mark of a text stays what it is, and so does what comes after it. -/
theorem Encoding.resolve_joinPairs {asked e : Encoding} {bytes : List UInt8} {start : Nat}
    (hr : asked.resolve (bytes.take 4) = (e, start)) :
    asked.resolve ((joinPairs 13 10 bytes).take 4) = (e, start) ∧
      (joinPairs 13 10 bytes).drop start = joinPairs 13 10 (bytes.drop start) := by
  constructor
  · rw [← hr]
    cases asked <;> simp only [resolve, ByteOrderMark.detect_joinPairs]
  · have hsize := asked.resolve_size (bytes.take 4)
    rw [hr] at hsize
    rcases hsize with rfl | ⟨mark, rfl, hprefix⟩
    · rfl
    · obtain ⟨rest, rfl⟩ := hprefix.trans (List.take_prefix 4 bytes)
      rw [joinPairs_append fun hreturn => (mark.ne_of_mem_bytes 13 hreturn).1 rfl,
        ByteOrderMark.size, List.drop_left, List.drop_left]

/-! ### Characters -/

namespace Decode

variable {e : Encoding} {unit : Nat} {units : List Nat}

/-- A text can be cut at ASCII. -/
theorem decode_cut (he : e.isSingleByte) (h : unit < 0x80) (run rest : List Nat) :
    e.decode (run ++ unit :: rest) = e.decode run ++ Char.ofNat unit :: e.decode rest := by
  rw [decode_append _ ((fresh_ascii h rest).freshIn e), decode_of_first (first_ascii he h rest)]

theorem head?_of_decode (he : e.isSingleByte) (hu : ∀ unit ∈ units, unit < 256) {c : Char}
    (hc : c.toNat < 0x80) (h : (e.decode units).head? = some c) :
    units.head? = some c.toNat := by
  cases units with
  | nil => exact absurd h (by simp)
  | cons unit units =>
    obtain ⟨d, rest, hf⟩ := exists_first e unit units
    rw [decode_of_first hf] at h
    obtain rfl : d = c := Option.some.inj h
    obtain ⟨eaten, heq, heaten⟩ := exists_eaten he hu hf
    rw [heq, heaten hc]
    rfl

theorem mem_of_mem_decode (he : e.isSingleByte) (hu : ∀ unit ∈ units, unit < 256) {c : Char}
    (hc : c.toNat < 0x80) (h : c ∈ e.decode units) : c.toNat ∈ units := by
  have hscanned : c ∈ (Strategy.decode.scanned e 0 units).map Scanned.char := by
    rwa [Strategy.map_char_scanned (by decide)]
  obtain ⟨d, hd, rfl⟩ := List.mem_map.mp hscanned
  exact Strategy.mem_of_mem_scanned (by decide) he hu hd hc

theorem return_not_mem_decode (he : e.isSingleByte) (hu : ∀ unit ∈ units, unit < 256)
    (h : 13 ∉ units) : '\r' ∉ e.decode units :=
  fun hreturn => h (mem_of_mem_decode he hu (by decide) hreturn)

/-- The characters CR LF of a text are its units CR LF. -/
theorem joinPairs_decode (he : e.isSingleByte) (hu : ∀ unit ∈ units, unit < 256) :
    joinPairs '\r' '\n' (e.decode units) = e.decode (joinPairs 13 10 units) := by
  induction hn : units.length using Nat.strongRecOn generalizing units with
  | _ n ih =>
    subst hn
    by_cases hreturn : 13 ∈ units
    · -- Up to the first carriage return nothing is joined.
      obtain ⟨run, rest, rfl, hrun⟩ := List.eq_append_cons_of_mem hreturn
      simp only [List.forall_mem_append, List.forall_mem_cons] at hu
      obtain ⟨hurun, -, hurest⟩ := hu
      rw [decode_cut he (by decide), joinPairs_append (return_not_mem_decode he hurun hrun),
        joinPairs_append hrun]
      by_cases hfeed : rest.head? = some 10
      · obtain ⟨rest, rfl⟩ := List.head?_eq_some_iff.mp hfeed
        have hdecode : e.decode (10 :: rest) = '\n' :: e.decode rest :=
          decode_cut he (by decide) [] rest
        have hrest := ih rest.length (by simp; omega) (List.forall_mem_cons.mp hurest).2 rfl
        rw [joinPairs_pair, decode_cut he (by decide), hdecode, ← hrest]
        exact congrArg (e.decode run ++ ·) joinPairs_pair
      · have hfeed' : (e.decode rest).head? ≠ some '\n' :=
          fun h => hfeed (head?_of_decode he hurest (by decide) h)
        have hrest := ih rest.length (by simp; omega) hurest rfl
        rw [joinPairs_cons fun _ => hfeed, decode_cut he (by decide), ← hrest]
        exact congrArg (e.decode run ++ ·) (joinPairs_cons fun _ => hfeed')
    · rw [joinPairs_eq_self (return_not_mem_decode he hu hreturn), joinPairs_eq_self hreturn]

end Decode

namespace Strategy

variable {s : Strategy} {e : Encoding} {stop stop' : Nat} {units : List Nat}

/-- What is kept as it is. -/
theorem map_char_scanned_raw (units : List Nat) :
    (Strategy.raw.scanned e stop units).map Scanned.char = units.map rawChar := by
  induction units with
  | nil => simp
  | cons unit units ih =>
    have hf : Strategy.raw.first e (unit :: units) = some (rawChar unit, units) := rfl
    rw [scanned_of_first hf, List.map_cons, ih, List.map_cons]

theorem toNat_rawChar {unit : Nat} (h : unit < 256) : (rawChar unit).toNat = unit := by
  have hv := isValidChar_of_lt (show unit < 0xD800 by omega)
  rw [rawChar, scalar?, if_pos hv]
  exact toNat_ofNat hv

/-- The characters CR LF of a text are its units CR LF, whether it is decoded
or not. -/
theorem joinPairs_scanned (he : e.isSingleByte) (hu : ∀ unit ∈ units, unit < 256) :
    joinPairs '\r' '\n' ((s.scanned e stop units).map Scanned.char) =
      (s.scanned e stop' (joinPairs 13 10 units)).map Scanned.char := by
  by_cases hs : s = .raw
  · subst hs
    have hinj : ∀ x < 256, ∀ unit ∈ units, rawChar unit = rawChar x ↔ unit = x := by
      intro x hx unit hunit
      refine ⟨fun heq => ?_, fun heq => heq ▸ rfl⟩
      rw [← toNat_rawChar (hu unit hunit), heq, toNat_rawChar hx]
    rw [map_char_scanned_raw, map_char_scanned_raw]
    exact joinPairs_map (hinj 13 (by decide)) (hinj 10 (by decide))
  · rw [map_char_scanned hs, map_char_scanned hs, Decode.joinPairs_decode he hu]

end Strategy

/-! ### Cells -/

/-- One text is what the other becomes when it is folded, and in its dialect
CR LF stays as it is. -/
structure Folded (d : Dialect) (cs : List Scanned) (d' : Dialect) (cs' : List Scanned) : Prop where
  folds : d.folds
  known : d.lineEnd ≠ .auto
  dialect : d' = d.keeping
  chars : (logical true cs).map Scanned.bare = cs'.map Scanned.bare

/-- The texts of cells, and whether they were in quotes. -/
def Cell.SameText (c c' : Cell) : Prop := c.text = c'.text ∧ c.enclosed = c'.enclosed

theorem map_told_of_matches {handed handed' : List Handed}
    (h : List.Forall₂ (Handed.Matches Cell.SameText) handed handed') :
    handed.map Handed.told = handed'.map Handed.told := by
  rw [← List.forall₂_eq_eq_eq, List.forall₂_map_left_iff, List.forall₂_map_right_iff]
  refine h.imp fun g g' hmatch => ?_
  rw [Handed.told, hmatch.row, hmatch.column, hmatch.cell.1, hmatch.cell.2]
  rfl

section

variable {d d' : Dialect} {k k' : Handing} {cs cs' : List Scanned}

/-- The characters of bytes are folded beforehand if the bytes are. -/
theorem folded_scanned {e : Encoding} (he : e.isSingleByte) (hfolds : d.folds)
    (hknown : d.lineEnd ≠ .auto) (s : Strategy) (stop stop' : Nat) (bytes : List UInt8) :
    Folded d (s.scanned e stop (bytes.map UInt8.toNat)) d.keeping
      (s.scanned e stop' ((joinPairs 13 10 bytes).map UInt8.toNat)) := by
  refine ⟨hfolds, hknown, rfl, map_bare_eq ?_⟩
  rw [map_char_logical, if_pos rfl, joinPairs_map_toNat]
  exact Strategy.joinPairs_scanned he (Bytewise.toNat_lt bytes)

/-- A cell of the one is the cell of the other, what comes after it folded. -/
theorem Folded.read (h : Folded d cs d' cs') (k k' : Handing) :
    ((k.read d cs).folded true).bare = (k'.read d' cs').bare := by
  have hfolded := Dialect.folded_readCell k.stop h.known CellBuffer.empty.whitespace cs
  rw [h.folds] at hfolded
  rw [Handing.read, Handing.read, hfolded, Dialect.bare_readCell, h.chars, Dialect.bare_readCell,
    h.dialect]

/-- The two texts are read in step. -/
theorem keepsStep_folded (hk : k.strategy.keepsChars) (hk' : k'.strategy.keepsChars) :
    KeepsStep k k' Cell.SameText Folded where
  ended {d d' cs cs'} h := by
    rw [← List.map_eq_nil_iff (f := Scanned.bare) (l := cs'), ← h.chars, List.map_eq_nil_iff,
      logical_eq_nil_iff]
  ending h := (congrArg CellRead.ending (h.read k k') :)
  cell {d d' cs cs'} h := by
    have hread := h.read k k'
    have hkept := map_char_eq (congrArg CellRead.kept hread :)
    refine ⟨?_, (congrArg CellRead.enclosed hread :)⟩
    rw [CellRead.text_cell hk, CellRead.text_cell hk', ← hkept]
    rfl
  rest {d d' cs cs'} h := by
    have hread := h.read k k'
    have hlearns : d.LearnsTo (k.read d cs).dialect := Dialect.learnsTo_readCell ..
    refine ⟨?_, hlearns.lineEnd_known h.known, (congrArg CellRead.dialect hread).symm,
      (congrArg CellRead.rest hread :)⟩
    rw [← hlearns.folds_known h.known]
    exact h.folds

end

/-! ### Texts in memory -/

namespace Reader

/-- In an encoding of one byte a unit, what a reader comes to first are the
characters of the bytes after the mark. -/
theorem exists_between_scanned {bytes : List UInt8} {f : Format} {o : ReadOptions} {e : Encoding}
    {start : Nat} (hr : f.encoding.resolve (bytes.take 4) = (e, start)) (he : e.isSingleByte)
    (hs : (o.strategy.getD .decode).keepsChars) :
    let s := o.strategy.getD .decode
    ∃ r, ofBytes bytes f o = .ok r ∧ r.phase.isFinal = false ∧ r.handed = [] ∧
      r.Between f.toDialect ⟨s, e, bytes, bytes.length⟩
        (s.scanned e bytes.length ((bytes.drop start).map UInt8.toNat)) := by
  intro s
  have hgroups := Encoding.groups_singleByte he (bytes.drop start)
  have hholds := Units.holds_advance (Encoding.start_le_of_resolve hr) hgroups
  have hview : s ≠ .view := by
    intro hview
    rw [show o.strategy.getD .decode = .view from hview] at hs
    exact absurd hs (by decide)
  have hcheck : s.check f e true = .ok () := if_pos hview
  refine ⟨_, (ofBytes_eq o hr).trans (congrArg (Except.map _) hcheck), rfl, rfl,
    ⟨⟨Chars.gives_ofUnits (hholds.gives s), rfl⟩, rfl, rfl, rfl, rfl, .inl hview⟩⟩

end Reader

/-- Whether CR LF is folded while a text is read or before makes no difference
to the cells, whatever else the bytes are. -/
theorem readBytes_joinPairs {bytes : List UInt8} {f : Format} {o : ReadOptions} {e : Encoding}
    {start : Nat} (hr : f.encoding.resolve (bytes.take 4) = (e, start)) (he : e.isSingleByte)
    (hline : f.lineEnd = .char '\n') (hfolds : f.folds)
    (hs : o.strategy.getD .decode = .decode ∨ o.strategy.getD .decode = .raw) :
    let read (f : Format) (bytes : List UInt8) :=
      readBytes bytes f { o with characterwise := true } .always
    let folded := read f bytes
    let before := read { f with keepsCrLf := true } (joinPairs 13 10 bytes)
    ∃ s s', folded.result = .ok s ∧ before.result = .ok s' ∧
      folded.handed.map Handed.told = before.handed.map Handed.told ∧
      s.rows = s'.rows ∧ s.separator = s'.separator := by
  intro read folded before
  have hkeeps : (o.strategy.getD .decode).keepsChars := by
    rcases hs with h | h <;> rw [h] <;> rfl
  obtain ⟨hr', hdrop⟩ := Encoding.resolve_joinPairs hr
  obtain ⟨r, hof, hphase, hhanded, hbetween⟩ := Reader.exists_between_scanned hr he hkeeps
  obtain ⟨r', hof', hphase', hhanded', hbetween'⟩ :=
    @Reader.exists_between_scanned _ { f with keepsCrLf := true } _ _ _ hr' he hkeeps
  rw [hdrop] at hbetween'
  have hagree := folded_scanned he hfolds (by simp [hline]) (o.strategy.getD .decode) bytes.length
    (joinPairs 13 10 bytes).length (bytes.drop start)
  obtain ⟨rows, t, t', hread, hread', hmatches, hdialect⟩ := Reader.read_parallel
    (keepsStep_folded hkeeps hkeeps) hagree hbetween hbetween' hphase hphase' hhanded hhanded'
  have hofReader : ∀ f bytes, read f bytes = .ofReader .always (Reader.ofBytes bytes f o) :=
    fun _ _ => rfl
  have hfolded : folded = r.outcome .always := by rw [show folded = _ from hofReader .., hof]; rfl
  have hbefore : before = r'.outcome .always := by rw [show before = _ from hofReader .., hof']; rfl
  rw [hfolded, hbefore, Reader.outcome, Reader.outcome, hread, hread']
  exact ⟨_, _, rfl, rfl, map_told_of_matches hmatches, rfl,
    (congrArg Dialect.separator hdialect.dialect).symm⟩

/-- A carriage return before CR LF stays, in quotes as elsewhere, and a sequence
that CR LF breaks off does not take it along. -/
theorem readBytes_joinPairs_broken :
    let bytes : List UInt8 :=
      [0x22, 0x61, 0x0D, 0x0D, 0x0A, 0x22, 0x0D, 0x0A, 0xE2, 0x0D, 0x0A, 0x62, 0x3B]
    let f : Format := { Format.csv with separator := .auto }
    let before := readBytes (joinPairs 13 10 bytes) { f with keepsCrLf := true }
      { characterwise := true } .always
    f.encoding.resolve (bytes.take 4) = (.utf8, 0) ∧ Encoding.utf8.isSingleByte ∧
      f.lineEnd = .char '\n' ∧ f.folds ∧
      ∃ s, before.result = .ok s ∧ s.rows = 3 ∧ s.separator = .char ';' ∧
        before.handed.map Handed.told = [(0, 0, "a\r\n", true), (1, 0, "\uFFFD", false),
          (2, 0, "b", false), (2, 1, "", false)] := by
  intro bytes f before
  let folded := readBytes bytes f { characterwise := true } .always
  have hr : f.encoding.resolve (bytes.take 4) = (.utf8, 0) := by decide
  obtain ⟨s, s', hs, hs', htold, hrows, hseparator⟩ :=
    readBytes_joinPairs (o := {}) hr (by decide) rfl (by decide) (.inl rfl)
  have hcells : folded.handed.map Handed.told = [(0, 0, "a\r\n", true), (1, 0, "\uFFFD", false),
      (2, 0, "b", false), (2, 1, "", false)] := by decide +kernel
  have hsummary : folded.result.toOption.map (fun s => (s.rows, s.separator)) =
      some (3, .char ';') := by decide +kernel
  rw [show folded.result = .ok s from hs] at hsummary
  obtain ⟨hthree, hsemicolon⟩ : s.rows = 3 ∧ s.separator = .char ';' := by
    simpa [Except.toOption] using hsummary
  exact ⟨hr, by decide, rfl, by decide, s', hs', hrows ▸ hthree, hseparator ▸ hsemicolon,
    htold.symm.trans hcells⟩

end Tabular
