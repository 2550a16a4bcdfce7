/-
The cells of a text that breaks off.

* `slip` — the offset that is reported in place of one in such a text;
* `Encoding.layOutFrom` — the characters from some unit on;
* `Units.gives_layOut`, `Units.gives_slip` — a source gives the characters of its
  bytes, and if they break off at the offsets that are reported;
* `Dialect.readCell_move` — which cell characters begin with does not depend on
  where they lie;
* `Frays` — characters of which two of U+FFFD are the last;
* `Dialect.whole_readCell` — unless one of these ends a cell, no cell begins or
  ends between them.

Design notes: only the offset between the last two characters slips.  So
characters are first read wherever they lie, and then it is seen that no cell
lies by that offset.
-/
import Tabular.Proofs.Read.Learn
import Tabular.Proofs.Read.Reported

namespace Tabular

/-- The offset that is reported in place of one, in a text that breaks off and
ends at offset `stop`. -/
def slip (stop offset : Nat) : Nat := if offset + 1 = stop then offset - 1 else offset

theorem slip_of_ne {stop offset : Nat} (h : offset + 1 ≠ stop) : slip stop offset = offset :=
  if_neg h

theorem slip_self (stop : Nat) : slip stop stop = stop := slip_of_ne (Nat.succ_ne_self stop)

theorem slip_le (stop offset : Nat) : slip stop offset ≤ offset := by
  rw [slip]
  split_ifs
  · exact Nat.sub_le ..
  · exact Nat.le_refl _

/-- The character, at other offsets. -/
def Scanned.move (f : Nat → Nat) (c : Scanned) : Scanned :=
  ⟨c.char, ⟨f c.span.start, f c.span.stop⟩⟩

/-- Characters of which the last two are U+FFFD if the offset before `stop` is
that of a character. -/
structure Frays (stop : Nat) (cs : List Scanned) : Prop where
  char : ∀ c ∈ cs, c.span.start + 1 = stop → c.char = replacement
  chain : cs.IsChain fun c d => d.span.start + 1 = stop → c.char = replacement

/-! ### The characters of a text that breaks off -/

/-- The characters of the units after the first `n`. -/
def Encoding.layOutFrom (e : Encoding) (start : Nat) (bytes : List UInt8) (n : Nat) :
    List Scanned :=
  (Strategy.decode.scanned e (start + e.unitWidth * (e.unitsOf bytes).length)
    ((e.unitsOf bytes).drop n)).map (Scanned.clip (start + bytes.length))

namespace Encoding

variable {e : Encoding} {start n m : Nat} {bytes : List UInt8} {c : Char}

theorem unitOffset_length :
    e.unitOffset start bytes (e.unitsOf bytes).length = start + bytes.length :=
  Nat.min_eq_left (Nat.add_le_add_left (e.length_le_unitsOf bytes) start)

theorem layOutFrom_length : e.layOutFrom start bytes (e.unitsOf bytes).length = [] := by
  rw [layOutFrom, List.drop_length, Strategy.scanned_nil, List.map_nil]

/-- A character lies on its units, as far as they go. -/
theorem layOutFrom_of_first (hn : n < (e.unitsOf bytes).length)
    (hm : m ≤ (e.unitsOf bytes).length)
    (hf : Decode.first e ((e.unitsOf bytes).drop n) = some (c, (e.unitsOf bytes).drop m)) :
    e.layOutFrom start bytes n =
      ⟨c, ⟨e.unitOffset start bytes n, e.unitOffset start bytes m⟩⟩ ::
        e.layOutFrom start bytes m := by
  have hoffset : ∀ k ≤ (e.unitsOf bytes).length,
      start + e.unitWidth * (e.unitsOf bytes).length -
        e.unitWidth * ((e.unitsOf bytes).drop k).length = start + e.unitWidth * k := by
    intro k hk
    have := Nat.mul_le_mul_left e.unitWidth hk
    rw [List.length_drop, Nat.mul_sub]
    omega
  have hlow := unitWidth_mul_lt hn
  have hstart : e.unitOffset start bytes n = start + e.unitWidth * n :=
    Nat.min_eq_right (Nat.add_le_add_left (Nat.le_of_lt hlow) start)
  rw [layOutFrom, Strategy.scanned_of_first (s := .decode) hf, List.map_cons, Scanned.clip,
    hoffset n (Nat.le_of_lt hn), hoffset m hm, hstart]
  rfl

theorem layOutFrom_zero : e.layOutFrom start bytes 0 = e.layOut start bytes := rfl

theorem offsetOf_layOutFrom (start : Nat) (hn : n ≤ (e.unitsOf bytes).length) :
    offsetOf (start + bytes.length) (e.layOutFrom start bytes n) = e.unitOffset start bytes n := by
  rcases Nat.lt_or_eq_of_le hn with hlt | rfl
  · have hunits := List.drop_eq_getElem_cons hlt
    obtain ⟨c, rest, hf⟩ := Decode.exists_first e (e.unitsOf bytes)[n]
      ((e.unitsOf bytes).drop (n + 1))
    rw [← hunits] at hf
    obtain ⟨m, -, hm, rfl⟩ := Strategy.exists_drop_of_first (s := .decode) hf
    rw [layOutFrom_of_first hlt hm hf, offsetOf]
  · rw [layOutFrom_length, offsetOf, unitOffset_length]

/-- The last unit of bytes that break off has one byte. -/
theorem BreaksOff.unitOffset_succ_eq_iff (h : e.BreaksOff bytes) (start : Nat)
    (hn : n ≤ (e.unitsOf bytes).length) :
    e.unitOffset start bytes n + 1 = start + bytes.length ↔ n + 1 = (e.unitsOf bytes).length := by
  obtain ⟨-, hcut, high, -, ⟨before, hunits⟩⟩ := breaksOff_iff.mp h
  have hw : e.unitWidth = 2 := by obtain ⟨rfl | rfl, -⟩ := breaksOff_iff.mp h <;> rfl
  have hle := e.length_le_unitsOf bytes
  rw [hw] at hle
  have hlast : 2 * ((e.unitsOf bytes).length - 1) < bytes.length := by
    have hlen := congrArg List.length hunits
    rw [List.length_append, List.length_cons, List.length_singleton] at hlen
    have hpos : (e.unitsOf bytes).length - 1 < (e.unitsOf bytes).length := by omega
    have hlow := unitWidth_mul_lt hpos
    rwa [hw] at hlow
  rw [unitOffset, hw]
  omega

/-- Bytes that break off do not begin with their last unit. -/
theorem BreaksOff.offsetOf_ne (h : e.BreaksOff bytes) (start : Nat) :
    offsetOf (start + bytes.length) (e.layOut start bytes) + 1 ≠ start + bytes.length := by
  obtain ⟨-, -, high, -, ⟨before, hunits⟩⟩ := breaksOff_iff.mp h
  rw [← layOutFrom_zero, offsetOf_layOutFrom start (Nat.zero_le _), Ne,
    h.unitOffset_succ_eq_iff start (Nat.zero_le _), ← hunits, List.length_append, List.length_cons,
    List.length_singleton]
  omega

/-- The last character of bytes that break off is U+FFFD. -/
theorem BreaksOff.char_of_last (h : e.BreaksOff bytes) (hn : n + 1 = (e.unitsOf bytes).length)
    {rest : List Nat} (hf : Decode.first e ((e.unitsOf bytes).drop n) = some (c, rest)) :
    c = replacement := by
  have hwide : 1 < e.unitWidth :=
    Nat.lt_of_le_of_ne e.unitWidth_pos fun hone => h.1 (hone ▸ Nat.one_dvd _)
  obtain ⟨units, hunits⟩ := exists_unitsOf_of_cut h.1
  rw [hunits, List.length_append, List.length_singleton] at hn
  obtain rfl := Nat.succ.inj hn
  rw [hunits, List.drop_left, Decode.first, start_replacement hwide] at hf
  exact (Prod.mk.inj (Option.some.inj hf)).1.symm

end Encoding

namespace Units

variable {u u' : Units} {e : Encoding} {start n : Nat} {bytes : List UInt8} {c : Char}

/-- A unit is put back only if it breaks a character. -/
theorem char_of_finish {v : Unfinished} (h : u.finish v = .ok c u') (hp : u'.pushed.isSome) :
    c = replacement := by
  fun_induction Units.finish v u with
  | case1 => simp at h
  | case2 | case3 => exact (EStateM.Result.ok.inj h).1.symm
  | case4 v u unit t ht d hfeed =>
    obtain ⟨-, rfl⟩ := EStateM.Result.ok.inj h
    rw [(next_some ht).2] at hp
    exact absurd hp (by simp)
  | case5 v u unit t ht v' hfeed ih => exact ih h

theorem char_of_nextChar (h : u.nextChar = .ok (some c) u') (hp : u'.pushed.isSome) :
    c = replacement := by
  rw [Units.nextChar] at h
  split at h
  · simp at h
  · simp at h
  · rename_i t ht
    split at h
    · obtain ⟨-, rfl⟩ := EStateM.Result.ok.inj h
      rw [(next_some ht).2] at hp
      exact absurd hp (by simp)
    · split at h
      · simp at h
      · rename_i hfinish
        obtain ⟨hc, rfl⟩ := EStateM.Result.ok.inj h
        exact Option.some.inj hc ▸ char_of_finish hfinish hp

namespace Past

theorem position_slip (h : u.Past e start bytes n) (hbreak : e.BreaksOff bytes) :
    u.position = slip (start + bytes.length) (e.unitOffset start bytes n) := by
  have hiff := hbreak.unitOffset_succ_eq_iff start h.count_le
  rw [slip]
  rcases h.position with ⟨hposition, hgoes⟩ | ⟨hposition, -, hlast⟩
  · rw [if_neg fun hlast => hgoes ⟨hbreak, hiff.mp hlast⟩, hposition]
  · rw [if_pos (hiff.mpr hlast), ← hposition, Nat.add_sub_cancel]

/-- After all the units the source is at its end. -/
theorem ended (h : u.Past e start bytes (e.unitsOf bytes).length) :
    u.source.Yields [] (start + bytes.length) ∧ u.pushed = none := by
  have hbrings := h.brings
  rw [List.drop_length] at hbrings
  have hpushed := hbrings.pushed_of_nil
  have hposition := h.source_position
  obtain ⟨k, hyields⟩ := h.aligned
  have hrest : bytes.drop (u.encoding.unitWidth * k) = [] := by
    rw [← u.encoding.unitsOf_eq_nil, ← hyields.rest]
    exact (List.append_eq_nil_iff.mp hbrings.toCome).2
  rw [hrest] at hyields
  rw [hpushed, hyields.position, Option.toList_none, List.length_nil, Nat.add_zero,
    Encoding.unitOffset_length] at hposition
  exact ⟨hposition ▸ hyields, hpushed⟩

/-- The characters of a text are given, at the offsets `f` that are reported.  Of a
text that breaks off the last two are U+FFFD. -/
theorem gives {f : Nat → Nat} (hle : ∀ offset, f offset ≤ offset)
    (hf : ∀ ⦃u : Units⦄ ⦃n⦄, u.Past e start bytes n →
      u.position = f (e.unitOffset start bytes n)) (h : u.Past e start bytes n) :
    let cs := e.layOutFrom start bytes n
    u.Gives .decode (start + bytes.length) (cs.map (Scanned.move f)) ∧
      (e.BreaksOff bytes → Frays (start + bytes.length) cs) := by
  induction hcount : (e.unitsOf bytes).length - n using Nat.strongRecOn generalizing u n with
  | _ count ih =>
    subst hcount
    rcases Nat.lt_or_eq_of_le h.count_le with hn | rfl
    · have hunits := List.drop_eq_getElem_cons hn
      obtain ⟨c, rest, hfirst⟩ := Decode.exists_first e (e.unitsOf bytes)[n]
        ((e.unitsOf bytes).drop (n + 1))
      rw [← hunits] at hfirst
      obtain ⟨u', m, -, hnext, h', rfl⟩ := h.nextChar_of_first hfirst
      have hlt := Decode.length_lt_of_first hfirst
      rw [List.length_drop, List.length_drop] at hlt
      obtain ⟨hgives, hfrays⟩ := ih _ hlt h' rfl
      rw [Encoding.layOutFrom_of_first hn h'.count_le hfirst]
      constructor
      · have hlow := Nat.add_lt_add_left (Encoding.unitWidth_mul_lt hn) start
        refine .cons ?_ (h'.encoding.trans h.encoding.symm) ?_ hgives
        · rw [Units.scan, show u.readChar .decode = u.nextChar from rfl, hnext]
          dsimp only
          rw [hf h, hf h']
          rfl
        · rw [hf h]
          exact Nat.lt_of_le_of_lt (hle _) (Nat.lt_of_le_of_lt (Nat.min_le_right ..) hlow)
      · intro hbreak
        have hiff {k : Nat} (hk : k ≤ (e.unitsOf bytes).length) :=
          hbreak.unitOffset_succ_eq_iff start hk
        refine ⟨List.forall_mem_cons.mpr ⟨fun hstart => ?_, (hfrays hbreak).char⟩,
          List.isChain_cons.mpr ⟨fun d hd hstart => char_of_nextChar hnext ?_,
            (hfrays hbreak).chain⟩⟩
        · exact hbreak.char_of_last ((hiff h.count_le).mp hstart) hfirst
        · -- The unit that is left has been put back.
          obtain ⟨more, hmore⟩ := List.head?_eq_some_iff.mp hd
          have hoffset := e.offsetOf_layOutFrom start h'.count_le
          rw [hmore, offsetOf] at hoffset
          rw [hoffset] at hstart
          exact h'.pushed (fun hone => hbreak.1 (hone ▸ Nat.one_dvd _))
            ((Encoding.pairs_iff ((hiff h'.count_le).mp hstart)).mp hbreak.2)
    · obtain ⟨hyields, hpushed⟩ := h.ended
      rw [Encoding.layOutFrom_length]
      exact ⟨.nil hyields hpushed, fun _ => ⟨List.forall_mem_nil _, .nil⟩⟩

end Past

/-- A source that delivers bytes gives their characters, unless they break
off. -/
theorem gives_layOut {source : Source} (h : source.Yields bytes start)
    (hbreak : ¬ e.BreaksOff bytes) :
    (ofSource source e).Gives .decode (start + bytes.length) (e.layOut start bytes) := by
  obtain ⟨hgives, -⟩ := (Past.ofSource h e).gives (f := id) (fun _ => Nat.le_refl _)
    fun u n h => h.position.resolve_right (fun hcut => hbreak hcut.2.1) |>.1
  have hid : Scanned.move id = id := rfl
  rwa [hid, List.map_id, Encoding.layOutFrom_zero] at hgives

/-- If they do, it gives them at other offsets. -/
theorem gives_slip {source : Source} (h : source.Yields bytes start)
    (hbreak : e.BreaksOff bytes) :
    (ofSource source e).Gives .decode (start + bytes.length)
        ((e.layOut start bytes).map (Scanned.move (slip (start + bytes.length)))) ∧
      Frays (start + bytes.length) (e.layOut start bytes) := by
  obtain ⟨hgives, hfrays⟩ := (Past.ofSource h e).gives (slip_le _)
    fun u n h => h.position_slip hbreak
  exact ⟨hgives, hfrays hbreak⟩

end Units

/-! ### Characters at other offsets -/

theorem offsetOf_move (f : Nat → Nat) (stop : Nat) (cs : List Scanned) :
    offsetOf (f stop) (cs.map (Scanned.move f)) = f (offsetOf stop cs) := by
  cases cs <;> rfl

theorem offsetOf_slip (stop : Nat) (cs : List Scanned) :
    offsetOf stop (cs.map (Scanned.move (slip stop))) = slip stop (offsetOf stop cs) := by
  have hmove := offsetOf_move (slip stop) stop cs
  rwa [slip_self] at hmove

theorem uncons_move (f : Nat → Nat) (folds : Bool) (cs : List Scanned) :
    uncons folds (cs.map (Scanned.move f)) =
      (uncons folds cs).map fun p => (p.1.move f, p.2.map (Scanned.move f)) := by
  fun_cases uncons folds cs with
  | case1 => rfl
  | case2 c => rfl
  | case3 c d cs hfold => exact if_pos hfold
  | case4 c d cs hfold => exact if_neg hfold

theorem uncons_move_some {f : Nat → Nat} {folds : Bool} {c : Scanned} {cs rest : List Scanned}
    (h : uncons folds cs = some (c, rest)) :
    uncons folds (cs.map (Scanned.move f)) = some (c.move f, rest.map (Scanned.move f)) := by
  rw [uncons_move, h, Option.map_some]

theorem uncons_move_none {f : Nat → Nat} {folds : Bool} {cs : List Scanned}
    (h : uncons folds cs = none) : uncons folds (cs.map (Scanned.move f)) = none := by
  rw [uncons_move, h, Option.map_none]

/-- What is kept of characters are the characters, unless it is a view. -/
theorem CellBuffer.appendAll_move {s : Strategy} (hs : s ≠ .view) (b : CellBuffer)
    (f : Nat → Nat) (cs : List Scanned) :
    b.appendAll s (cs.map (Scanned.move f)) = b.appendAll s cs := by
  have happend (b : CellBuffer) (c : Scanned) : b.append s (c.move f) = b.append s c := by
    cases s with
    | raw | decode | discard => rfl
    | view => exact absurd rfl hs
  rw [appendAll, appendAll, List.foldl_map]
  exact congrArg (List.foldl · b cs) (funext fun b => funext fun c => happend b c)

/-- The cell, of characters at other offsets. -/
def CellRead.move (f : Nat → Nat) (p : CellRead) : CellRead :=
  { p with
    kept := p.kept.map (Scanned.move f)
    stop := f p.stop
    rest := p.rest.map (Scanned.move f) }

namespace Dialect

variable (d : Dialect) (f : Nat → Nat) (stop : Nat)

theorem readNaked_move (c : Scanned) (cs : List Scanned) :
    d.readNaked (f stop) (c.move f) (cs.map (Scanned.move f)) = (d.readNaked stop c cs).move f := by
  have hchar : ∀ c : Scanned, (c.move f).char = c.char := fun _ => rfl
  fun_induction readNaked d stop c cs with
  | case1 c cs t d' ht =>
    rw [readNaked, hchar, ht]
    rfl
  | case2 c cs ht hnone =>
    rw [readNaked, hchar, ht]
    dsimp only
    rw [uncons_move_none hnone]
    rfl
  | case3 c cs ht c' cs' hsome ih =>
    rw [readNaked, hchar, ht]
    dsimp only
    rw [uncons_move_some hsome]
    dsimp only
    rw [ih]
    rfl

theorem readEnclosed_move (q : Char) (cs : List Scanned) :
    d.readEnclosed (f stop) q (cs.map (Scanned.move f)) = (d.readEnclosed stop q cs).move f := by
  have hchar : ∀ c : Scanned, (c.move f).char = c.char := fun _ => rfl
  fun_induction readEnclosed d stop q cs with
  | case1 cs hnone =>
    rw [readEnclosed, uncons_move_none hnone]
    rfl
  | case2 cs c cs' hsome hc ih =>
    rw [readEnclosed, uncons_move_some hsome]
    dsimp only
    rw [hchar, if_pos hc, ih]
    rfl
  | case3 cs c cs' hsome hc hnone =>
    rw [readEnclosed, uncons_move_some hsome]
    dsimp only
    rw [hchar, if_neg hc, uncons_move_none hnone]
    rfl
  | case4 cs c cs' hsome hc c' cs'' hsome' hc' ih =>
    rw [readEnclosed, uncons_move_some hsome]
    dsimp only
    rw [hchar, if_neg hc, uncons_move_some hsome']
    dsimp only
    rw [hchar, if_pos hc', ih]
    rfl
  | case5 cs c cs' hsome hc c' cs'' hsome' hc' =>
    rw [readEnclosed, uncons_move_some hsome]
    dsimp only
    rw [hchar, if_neg hc, uncons_move_some hsome']
    dsimp only
    rw [hchar, if_neg hc', readNaked_move]

theorem seek_move (whitespace : List Char) (cs : List Scanned) :
    d.seek whitespace (cs.map (Scanned.move f)) =
      (d.seek whitespace cs).map fun p => (p.1.move f, p.2.1.map (Scanned.move f), p.2.2) := by
  have hchar : ∀ c : Scanned, (c.move f).char = c.char := fun _ => rfl
  fun_induction seek d whitespace cs with
  | case1 cs hnone =>
    rw [seek, uncons_move_none hnone]
    rfl
  | case2 cs c cs' hsome hc t d' ht =>
    rw [seek, uncons_move_some hsome]
    dsimp only
    rw [hchar, if_pos hc, ht]
    rfl
  | case3 cs c cs' hsome hc ht ih =>
    rw [seek, uncons_move_some hsome]
    dsimp only
    rw [hchar, if_pos hc, ht]
    exact ih
  | case4 cs c cs' hsome hc =>
    rw [seek, uncons_move_some hsome]
    dsimp only
    rw [hchar, if_neg hc]
    rfl

theorem readFirst_move (whitespace : List Char) (cs : List Scanned) :
    d.readFirst whitespace (cs.map (Scanned.move f)) =
      (d.readFirst whitespace cs).map fun p =>
        (p.1.move f, p.2.1.map (Scanned.move f), p.2.2) := by
  rw [readFirst, readFirst]
  split
  · exact d.seek_move f whitespace cs
  · rw [uncons_move, Option.map_map, Option.map_map]
    rfl

/-- Which cell characters begin with does not depend on where they lie. -/
theorem readCell_move (whitespace : List Char) (cs : List Scanned) :
    d.readCell (f stop) whitespace (cs.map (Scanned.move f)) =
      (d.readCell stop whitespace cs).move f := by
  rw [readCell, readCell, readFirst_move]
  cases d.readFirst whitespace cs with
  | none => rfl
  | some p =>
    obtain ⟨c, rest, d'⟩ := p
    rw [Option.map_some]
    dsimp only
    rw [readFrom, readFrom, show (c.move f).char = c.char from rfl]
    cases d'.opens? c.char with
    | some d'' =>
      dsimp only
      rw [readEnclosed_move]
      rfl
    | none => exact d'.readNaked_move f stop c rest

theorem readCell_slip (whitespace : List Char) (cs : List Scanned) :
    d.readCell stop whitespace (cs.map (Scanned.move (slip stop))) =
      (d.readCell stop whitespace cs).move (slip stop) := by
  have hmove := d.readCell_move (slip stop) stop whitespace cs
  rwa [slip_self] at hmove

end Dialect

/-! ### Cells away from the offset that slips -/

namespace Frays

variable {stop : Nat} {c : Scanned} {cs rest : List Scanned}

theorem nil (stop : Nat) : Frays stop [] := ⟨List.forall_mem_nil _, .nil⟩

theorem tail (h : Frays stop (c :: cs)) : Frays stop cs :=
  ⟨(List.forall_mem_cons.mp h.char).2, h.chain.tail⟩

/-- What comes just before the offset that slips is U+FFFD. -/
theorem offsetOf_ne (h : Frays stop (c :: cs)) (hc : c.char ≠ replacement) :
    offsetOf stop cs + 1 ≠ stop := by
  cases cs with
  | nil => exact Nat.succ_ne_self stop
  | cons d cs => exact fun hstart => hc ((List.isChain_cons_cons.mp h.chain).1 hstart)

theorem start_ne (h : Frays stop (c :: cs)) (hc : c.char ≠ replacement) :
    c.span.start + 1 ≠ stop := fun hstart => hc (h.char c (List.mem_cons_self ..) hstart)

/-- A line feed that is folded is not U+FFFD, and neither is what it is folded
with. -/
theorem uncons {folds : Bool} (h : Frays stop cs) (hc : uncons folds cs = some (c, rest)) :
    Frays stop (c :: rest) := by
  fun_cases Tabular.uncons folds cs with
  | case1 => simp [Tabular.uncons] at hc
  | case2 d =>
    obtain ⟨rfl, rfl⟩ := Prod.mk.inj (Option.some.inj hc)
    exact h
  | case3 a b cs hfold =>
    rw [Tabular.uncons, if_pos hfold] at hc
    obtain ⟨rfl, rfl⟩ := Prod.mk.inj (Option.some.inj hc)
    have hcr : a.char ≠ replacement := by
      rw [hfold.1]
      decide
    have hlf : b.char ≠ replacement := by
      rw [hfold.2.2]
      decide
    refine ⟨List.forall_mem_cons.mpr
        ⟨fun hstart => absurd hstart (h.start_ne hcr), h.tail.tail.char⟩,
      List.isChain_cons.mpr ⟨fun d hd hstart => ?_, h.tail.tail.chain⟩⟩
    obtain ⟨more, rfl⟩ := List.head?_eq_some_iff.mp hd
    exact absurd hstart (h.tail.offsetOf_ne hlf)
  | case4 a b cs hfold =>
    rw [Tabular.uncons, if_neg hfold] at hc
    obtain ⟨rfl, rfl⟩ := Prod.mk.inj (Option.some.inj hc)
    exact h

end Frays

theorem Delimiter.accepts_replacement {candidates : List Char} {d : Delimiter}
    (h : replacement ∉ candidates) : d.accepts candidates replacement ↔ d = .char replacement := by
  cases d <;> simp [accepts, h]

theorem Delimiter.LearnsTo.of_replacement {candidates : List Char} {d e : Delimiter}
    (h : Delimiter.LearnsTo candidates d e) (hc : replacement ∉ candidates)
    (he : e = .char replacement) : d = .char replacement := by
  rcases h with rfl | ⟨-, c, hmem, rfl⟩
  · exact he
  · exact absurd (Delimiter.char.inj he ▸ hmem) hc

/-- A cell and what comes after it are away from the offset that slips. -/
structure CellRead.Whole (p : CellRead) (stop : Nat) : Prop where
  stop_ne : p.stop + 1 ≠ stop
  rest_ne : offsetOf stop p.rest + 1 ≠ stop
  frays : Frays stop p.rest

namespace Dialect

variable {d : Dialect} {stop : Nat} {c : Scanned} {cs : List Scanned}

/-- U+FFFD ends a cell only in a format that says so. -/
theorem terminator?_replacement_eq_none :
    d.terminator? replacement = none ↔
      d.separator ≠ .char replacement ∧ d.lineEnd ≠ .char replacement := by
  have hs : d.separator.accepts Delimiter.separatorCandidates replacement ↔ _ :=
    Delimiter.accepts_replacement (by decide)
  have hl : d.lineEnd.accepts Delimiter.lineEndCandidates replacement ↔ _ :=
    Delimiter.accepts_replacement (by decide)
  rw [terminator?, Ne, Ne, ← hs, ← hl]
  split_ifs <;> simp [*]

/-- Nor is it learned to. -/
theorem LearnsTo.terminator?_replacement {e : Dialect} (h : d.LearnsTo e)
    (hd : d.terminator? replacement = none) : e.terminator? replacement = none := by
  rw [terminator?_replacement_eq_none] at hd ⊢
  exact ⟨fun he => hd.1 (h.separator.of_replacement (by decide) he),
    fun he => hd.2 (h.lineEnd.of_replacement (by decide) he)⟩

theorem whole_inputEnd (stop : Nat) (kept : List Scanned) (enclosed : Bool) (d : Dialect) :
    (CellRead.mk kept enclosed .inputEnd stop d []).Whole stop :=
  ⟨Nat.succ_ne_self stop, Nat.succ_ne_self stop, .nil stop⟩

theorem whole_readNaked (h : Frays stop (c :: cs)) (hd : d.terminator? replacement = none) :
    (d.readNaked stop c cs).Whole stop := by
  fun_induction readNaked d stop c cs with
  | case1 c cs t d' ht =>
    have hc : c.char ≠ replacement := by
      intro heq
      rw [heq, hd] at ht
      exact absurd ht (by simp)
    exact ⟨h.start_ne hc, h.offsetOf_ne hc, h.tail⟩
  | case2 c cs ht hnone => exact whole_inputEnd ..
  | case3 c cs ht c' cs' hsome ih =>
    obtain ⟨hstop, hrest, hfrays⟩ := ih (h.tail.uncons hsome)
    exact ⟨hstop, hrest, hfrays⟩

theorem whole_readEnclosed {q : Char} (h : Frays stop cs)
    (hd : d.terminator? replacement = none) : (d.readEnclosed stop q cs).Whole stop := by
  fun_induction readEnclosed d stop q cs with
  | case1 cs hnone => exact whole_inputEnd ..
  | case2 cs c cs' hsome hc ih =>
    obtain ⟨hstop, hrest, hfrays⟩ := ih (h.uncons hsome).tail
    exact ⟨hstop, hrest, hfrays⟩
  | case3 cs c cs' hsome hc hnone => exact whole_inputEnd ..
  | case4 cs c cs' hsome hc c' cs'' hsome' hc' ih =>
    obtain ⟨hstop, hrest, hfrays⟩ := ih ((h.uncons hsome).tail.uncons hsome').tail
    exact ⟨hstop, hrest, hfrays⟩
  | case5 cs c cs' hsome hc c' cs'' hsome' hc' =>
    exact whole_readNaked ((h.uncons hsome).tail.uncons hsome') hd

theorem frays_of_seek {e : Dialect} {whitespace : List Char} {rest : List Scanned}
    (h : Frays stop cs) (hs : d.seek whitespace cs = some (c, rest, e)) :
    Frays stop (c :: rest) := by
  fun_induction seek d whitespace cs with
  | case1 cs hnone => simp at hs
  | case2 cs c' cs' hsome hc t d' ht =>
    obtain ⟨rfl, rfl, -⟩ : c' = c ∧ cs' = rest ∧ _ := by simpa using hs
    exact h.uncons hsome
  | case3 cs c' cs' hsome hc ht ih => exact ih (h.uncons hsome).tail hs
  | case4 cs c' cs' hsome hc =>
    obtain ⟨rfl, rfl, -⟩ : c' = c ∧ cs' = rest ∧ _ := by simpa using hs
    exact h.uncons hsome

theorem frays_of_readFirst {e : Dialect} {whitespace : List Char} {rest : List Scanned}
    (h : Frays stop cs) (hr : d.readFirst whitespace cs = some (c, rest, e)) :
    Frays stop (c :: rest) := by
  rw [readFirst] at hr
  split at hr
  · exact frays_of_seek h hr
  · obtain ⟨⟨c', cs'⟩, hsome, heq⟩ := Option.map_eq_some_iff.mp hr
    obtain ⟨rfl, rfl, -⟩ : c' = c ∧ cs' = rest ∧ _ := by simpa using heq
    exact h.uncons hsome

/-- Unless U+FFFD ends a cell, no cell begins or ends between the last two
characters. -/
theorem whole_readCell (h : Frays stop cs) (hd : d.terminator? replacement = none)
    (whitespace : List Char) : (d.readCell stop whitespace cs).Whole stop := by
  rw [readCell]
  cases hfirst : d.readFirst whitespace cs with
  | none => exact whole_inputEnd ..
  | some p =>
    obtain ⟨c, rest, d'⟩ := p
    have hfrays := frays_of_readFirst h hfirst
    have hd' := (learnsTo_of_readFirst hfirst).terminator?_replacement hd
    dsimp only
    rw [readFrom]
    split
    · rename_i d'' ho
      obtain ⟨hstop, hrest, hfrays'⟩ := whole_readEnclosed (q := c.char) hfrays.tail
        ((LearnsTo.of_opens ho).terminator?_replacement hd')
      exact ⟨hstop, hrest, hfrays'⟩
    · exact whole_readNaked hfrays hd'

end Dialect

end Tabular
