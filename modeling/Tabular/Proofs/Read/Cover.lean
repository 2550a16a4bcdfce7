/-
Every byte of a text is accounted for.

* `Dialect.Covers` — cells and the texts that end them, which are all that
  there is in bytes;
* `Covers.length_eq` — so their lengths add up;
* `Dialect.covers_placedFrom` — the cells that characters make up cover the
  bytes of these;
* `Bytewise.covers_split` — the cells that a split finds cover what is split;
* `readBytes_covers` — and so do the cells of a text;
* `readBytes_accounts` — what a read says of itself, and what its cells add up
  to.

Design notes: a text may end with a cell that only the input ends, or with a
line end after which there is no row.  There are therefore as many ends as
cells, or one less.
-/
import Tabular.Proofs.Read.Progress
import Tabular.Proofs.Read.Spelled

namespace Tabular

namespace Dialect

/-- Cells and the texts that end them, one after another in bytes.  The first
cell stands in that row and column: after a separator comes the next column, and
after a line end the next row, if there is one. -/
inductive Covers (d : Dialect) (e : Encoding) :
    Nat → Nat → List UInt8 → List Handed → List (List Char) → Prop
  | nil {row : Nat} : Covers d e row 0 [] [] []
  /-- The input ends the cell. -/
  | last {row column : Nat} {bytes : List UInt8} {cell : Cell}
      (length : bytes.length = cell.rawBytes) : Covers d e row column bytes [⟨row, column, cell⟩] []
  | separator {row column : Nat} {bytes rest : List UInt8} {cell : Cell} {text : List Char}
      {hs : List Handed} {texts : List (List Char)} (length : bytes.length = cell.rawBytes)
      (ended : d.IsTerminator .separator text) (tail : Covers d e row (column + 1) rest hs texts) :
      Covers d e row column (bytes ++ e.encode text ++ rest) (⟨row, column, cell⟩ :: hs)
        (text :: texts)
  | lineEnd {row column : Nat} {bytes rest : List UInt8} {cell : Cell} {text : List Char}
      {hs : List Handed} {texts : List (List Char)} (length : bytes.length = cell.rawBytes)
      (ended : d.IsTerminator .lineEnd text) (tail : Covers d e (row + 1) 0 rest hs texts) :
      Covers d e row column (bytes ++ e.encode text ++ rest) (⟨row, column, cell⟩ :: hs)
        (text :: texts)

variable {origin d : Dialect} {e : Encoding} {row column : Nat} {bytes : List UInt8}
  {hs : List Handed} {texts : List (List Char)} {cs : List Scanned}

/-- The bytes of the cells and of what ends them add up to the bytes. -/
theorem Covers.length_eq (h : d.Covers e row column bytes hs texts) :
    (hs.map fun h => h.cell.rawBytes).sum + (texts.map fun text => (e.encode text).length).sum =
      bytes.length := by
  induction h with
  | nil => rfl
  | last length =>
    rw [length]
    rfl
  | separator length ended tail ih | lineEnd length ended tail ih =>
    rw [List.map_cons, List.map_cons, List.sum_cons, List.sum_cons, List.length_append,
      List.length_append, length, ← ih]
    dsimp only
    omega

/-- The cells that characters make up cover their bytes. -/
theorem covers_placedFrom (hl : origin.Legible) (ho : origin.LearnsTo d) (hcs : Spelled e bytes cs)
    (s : Strategy) (row column : Nat) :
    ∃ texts, origin.Covers e row column (bytes.drop (offsetOf bytes.length cs))
      ((d.placedFrom ⟨s, e, bytes, bytes.length⟩ row column cs).map Placed.handed) texts := by
  let k : Handing := ⟨s, e, bytes, bytes.length⟩
  -- On the characters to come, of which a terminator takes one.
  induction hn : cs.length using Nat.strongRecOn generalizing cs d row column with
  | _ n ih =>
    subst hn
    by_cases hnil : cs = [] ∧ column = 0
    · obtain ⟨rfl, rfl⟩ := hnil
      rw [placedFrom_nil, offsetOf, List.drop_length]
      exact ⟨[], .nil⟩
    have hlies : (k.read d cs).Lies origin e bytes (offsetOf bytes.length cs) :=
      lies_readCell hl ho hcs _
    have hle := hlies.start_le
    rw [placedFrom_of_ne hnil, List.map_cons, CellRead.placedAfter]
    cases hend : (k.read d cs).ending with
    | inputEnd =>
      have hrest : (k.read d cs).rest = [] := rest_eq_nil hend
      have hstop := hlies.inputEnd hend
      rw [if_neg (by simp), hrest, placedFrom_nil]
      refine ⟨[], .last ?_⟩
      rw [List.length_drop]
      exact congrArg (· - offsetOf bytes.length cs) hstop.symm
    | terminator t =>
      obtain ⟨hle', text, hended, hslice⟩ := hlies.terminator t hend
      have hlt := length_rest_lt hend
      have hparts : bytes.drop (offsetOf bytes.length cs) =
          (Span.mk (offsetOf bytes.length cs) (k.read d cs).stop).slice bytes ++ e.encode text ++
            bytes.drop (offsetOf bytes.length (k.read d cs).rest) := by
        rw [← hslice, Span.slice_append hle hle', Span.slice_append_drop (Nat.le_trans hle hle')]
      have hlen : ((Span.mk (offsetOf bytes.length cs) (k.read d cs).stop).slice bytes).length =
          (k.read d cs).stop - offsetOf bytes.length cs :=
        Span.length_slice (Nat.le_trans hle' hlies.rest.offsetOf_le)
      rw [hparts]
      cases t with
      | separator =>
        obtain ⟨texts, hcovers⟩ := ih _ hlt hlies.learns hlies.rest row (column + 1) rfl
        rw [if_pos rfl]
        exact ⟨text :: texts, .separator hlen hended hcovers⟩
      | lineEnd =>
        obtain ⟨texts, hcovers⟩ := ih _ hlt hlies.learns hlies.rest (row + 1) 0 rfl
        rw [if_neg (by simp)]
        exact ⟨text :: texts, .lineEnd hlen hended hcovers⟩

end Dialect

/-! ### Bytes that are split -/

namespace Bytewise

variable {d : Ends} {f : Dialect} {e : Encoding}

/-- A run and the byte after it are a cell and what ends it. -/
theorem Ends.Serves.exists_text (h : d.Serves f) (he : e.isSingleByte) (run : List UInt8)
    {b : UInt8} (hb : d.isContent b = false) :
    ∃ text, f.IsTerminator (if b = d.separator then .separator else .lineEnd) text ∧
      run ++ [b] = d.cellBytes run b ++ e.encode text := by
  have hascii := h.lt_of_not_isContent hb
  have haccepts : f.accepts (if b = d.separator then .separator else .lineEnd)
      (Char.ofNat b.toNat) := by
    split
    · rename_i hs
      rw [Dialect.accepts, h.separator, hs]
      exact beq_self_eq_true _
    · rename_i hs
      rw [Dialect.accepts, h.lineEnd, (d.eq_of_not_isContent hb).resolve_left hs]
      exact beq_self_eq_true _
  rw [Ends.cellBytes]
  by_cases hfold : d.folds ∧ b ≠ d.separator ∧ run.getLast? = some 13
  · -- The carriage return before a line feed belongs to it.
    rw [if_pos hfold]
    obtain ⟨hfolds, hs, hcr⟩ := hfold
    rw [if_neg hs] at haccepts ⊢
    have hf : f.folds := h.folds ▸ hfolds
    obtain rfl : b = 10 := ((d.eq_of_not_isContent hb).resolve_left hs).trans (h.lineEnd_eq hf)
    obtain ⟨init, rfl⟩ := List.getLast?_eq_some_iff.mp hcr
    have hcr : e.encode ['\r'] = [13] := Encoding.encode_ascii he (b := 13) (by decide)
    have hlf : e.encode ['\n'] = [10] := Encoding.encode_ascii he (b := 10) (by decide)
    have hcrlf : e.encode ['\r', '\n'] = [13, 10] := by
      rw [← List.singleton_append, Encoding.encode, List.flatMap_append, ← Encoding.encode,
        ← Encoding.encode, hcr, hlf]
      rfl
    refine ⟨['\r', '\n'], ⟨'\n', haccepts, .inr ⟨hf, rfl, rfl⟩⟩, ?_⟩
    rw [hcrlf, List.dropLast_concat, List.append_assoc, List.singleton_append]
  · rw [if_neg hfold]
    exact ⟨_, ⟨_, haccepts, .inl rfl⟩, congrArg (run ++ ·) (Encoding.encode_ascii he hascii).symm⟩

/-- The cells that a split finds cover what is split. -/
theorem covers_split (h : d.Serves f) (he : e.isSingleByte) (bytes : List UInt8) (p : Place)
    (handed : List Handed) (t : Tally) :
    ∃ hs texts, (split d e .always p .handing handed t bytes).handed = hs.reverse ++ handed ∧
      f.Covers e p.row p.column bytes hs texts := by
  induction bytes using induction_cells d generalizing p handed t with
  | last rest hrest =>
    by_cases hnil : rest = [] ∧ p.column = 0
    · obtain ⟨row, column, position⟩ := p
      obtain ⟨rfl, rfl⟩ := hnil
      rw [split_nil]
      exact ⟨[], [], rfl, .nil⟩
    · rw [split_end_always hrest hnil]
      exact ⟨[_], [], rfl, .last rfl⟩
  | step run b rest hrun hb ih =>
    obtain ⟨text, hended, hparts⟩ := h.exists_text he run hb
    have hbytes : run ++ b :: rest = d.cellBytes run b ++ e.encode text ++ rest := by
      rw [← hparts, List.append_assoc, List.singleton_append]
    let g : Handed := ⟨p.row, p.column, cellAt e p.position (d.cellBytes run b)⟩
    rw [split_byte_always hrun hb, hbytes]
    dsimp only
    by_cases hs : b = d.separator
    · rw [if_pos hs] at hended ⊢
      obtain ⟨hs, texts, hhanded, hcovers⟩ :=
        ih ⟨p.row, p.column + 1, p.position + run.length + 1⟩ (g :: handed) t
      refine ⟨g :: hs, text :: texts, ?_, .separator rfl hended hcovers⟩
      rw [List.reverse_cons, List.append_assoc]
      exact hhanded
    · rw [if_neg hs] at hended ⊢
      obtain ⟨hs, texts, hhanded, hcovers⟩ :=
        ih ⟨p.row + 1, 0, p.position + run.length + 1⟩ (g :: handed)
          (t.account (p.position + run.length + 1))
      refine ⟨g :: hs, text :: texts, ?_, .lineEnd rfl hended hcovers⟩
      rw [List.reverse_cons, List.append_assoc]
      exact hhanded

end Bytewise

/-! ### A text in memory -/

variable {bytes : List UInt8} {f : Format} {o : ReadOptions} {e : Encoding} {start : Nat}

/-- The characters of a text in memory are spelled out by its bytes. -/
theorem Reader.exists_spelled (hr : f.encoding.resolve (bytes.take 4) = (e, start))
    (hs : o.strategy ≠ some .raw) (hcheck : (o.strategy.getD .decode).check f e true = .ok ()) :
    ∃ chars cs, ofBytes bytes f o = .ok (fresh chars f o bytes) ∧
      (fresh chars f o bytes).Poised f.toDialect
        ⟨o.strategy.getD .decode, e, bytes, bytes.length⟩ cs ∧
      Spelled e bytes cs ∧ offsetOf bytes.length cs = start := by
  obtain ⟨chars, cs, hof, hpoised, -⟩ := exists_poised hr hs hcheck
  obtain ⟨units, hof', hwithin, rfl, hstart⟩ := exists_within hr hcheck
  -- Both are about the one reader that has read nothing.
  obtain rfl : chars = ⟨units, none⟩ :=
    congrArg Reader.chars (Except.ok.inj (hof.symm.trans hof'))
  obtain ⟨_, hgives, rfl⟩ := hpoised.faces.gives.units
  exact ⟨_, cs, hof, hpoised, hgives.spelled hpoised.decodes hwithin,
    hpoised.position.symm.trans hstart⟩

/-- The cells of a text cover it. -/
theorem readBytes_covers (hr : f.encoding.resolve (bytes.take 4) = (e, start))
    (hs : o.strategy ≠ some .raw) (hcheck : (o.strategy.getD .decode).check f e true = .ok ())
    (hl : f.toDialect.Legible) :
    ∃ texts, f.toDialect.Covers e 0 0 (bytes.drop start) (readBytes bytes f o .always).handed
      texts := by
  rw [readBytes, hr]
  dsimp only
  split
  · rename_i hsplit
    obtain ⟨d, hd, hserves, he⟩ := Format.exists_serves (Bool.and_eq_true_iff.mp hsplit).2
    obtain ⟨hs, texts, hhanded, hcovers⟩ :=
      Bytewise.covers_split hserves he (bytes.drop start) ⟨0, 0, start⟩ [] .zero
    refine ⟨texts, ?_⟩
    rw [Format.splitBytes, hd]
    dsimp only
    rw [Bytewise.run, Nat.min_eq_left (Encoding.start_le_of_resolve hr), hhanded, List.append_nil,
      List.reverse_reverse]
    exact hcovers
  · obtain ⟨chars, cs, hof, hpoised, hspelled, rfl⟩ := Reader.exists_spelled hr hs hcheck
    obtain ⟨s, -, hhanded, -⟩ := hpoised.outcome_heeded rfl rfl rfl .always
    rw [hof, Outcome.ofReader, hhanded, Judge.heeded_always]
    exact Dialect.covers_placedFrom hl (.refl _) hspelled _ 0 0

/-- A text in memory can be read whatever the verdicts are.  No more rows are
counted than there are bytes after the byte order mark, the account is of all
the bytes that have been read, and these are all that there are unless a
verdict has stopped the read.  If characters are decoded, none of which is
U+FFFD where cells end, and every cell is handed over, then the mark, the cells
and what ends them add up to the text. -/
theorem readBytes_accounts (hr : f.encoding.resolve (bytes.take 4) = (e, start))
    (hcheck : (o.strategy.getD .decode).check f e true = .ok ()) :
    (∀ judge, ∃ s, (readBytes bytes f o judge).Accounts start bytes.length s) ∧
      let handed := (readBytes bytes f o .always).handed
      (o.strategy ≠ some .raw → f.toDialect.Legible →
        ∃ texts, f.toDialect.Covers e 0 0 (bytes.drop start) handed texts ∧
          start + (handed.map fun h => h.cell.rawBytes).sum +
            (texts.map fun text => (e.encode text).length).sum = bytes.length) := by
  refine ⟨fun judge => readBytes_progress hr hcheck judge, fun hs hl => ?_⟩
  obtain ⟨texts, hcovers⟩ := readBytes_covers hr hs hcheck hl
  have hlen := hcovers.length_eq
  have hle := Encoding.start_le_of_resolve hr
  rw [List.length_drop] at hlen
  exact ⟨texts, hcovers, by omega⟩

/-- After a mark come two cells, of which CR LF ends the second, and a byte
that cannot be decoded. -/
theorem readBytes_accounts_mark :
    let bytes : List UInt8 := [0xEF, 0xBB, 0xBF, 0x61, 0x3B, 0x0D, 0x0A, 0xFF]
    let f : Format := { Format.csv with separator := .auto, lineEnd := .auto }
    let read := readBytes bytes f {}
    f.encoding.resolve (bytes.take 4) = (.utf8, 3) ∧ Strategy.decode.check f .utf8 true = .ok () ∧
      f.toDialect.Legible ∧ (∀ judge, ∃ s, (read judge).Accounts 3 8 s) ∧
      (read .always).handed.map (fun h => (h.row, h.column, h.cell.rawBytes)) =
        [(0, 0, 1), (0, 1, 0), (1, 0, 1)] ∧
      ∃ texts, f.toDialect.Covers .utf8 0 0 [0x61, 0x3B, 0x0D, 0x0A, 0xFF] (read .always).handed
        texts ∧ 3 + 2 + (texts.map fun text => (Encoding.utf8.encode text).length).sum = 8 := by
  intro bytes f read
  have hr : f.encoding.resolve (bytes.take 4) = (.utf8, 3) := by decide
  have hcheck : Strategy.decode.check f .utf8 true = .ok () := rfl
  have hl : f.toDialect.Legible := ⟨by decide, by decide⟩
  have hsizes : (read .always).handed.map (fun h => (h.row, h.column, h.cell.rawBytes)) =
      [(0, 0, 1), (0, 1, 0), (1, 0, 1)] := by decide +kernel
  obtain ⟨haccounts, hcovers⟩ := readBytes_accounts (o := {}) hr hcheck
  obtain ⟨texts, hcovers, hsum⟩ := hcovers (by decide) hl
  have htwo : ((read .always).handed.map fun h => h.cell.rawBytes).sum = 2 := by decide +kernel
  refine ⟨hr, hcheck, hl, haccounts, hsizes, texts, hcovers, ?_⟩
  rw [← htwo]
  exact hsum

end Tabular
