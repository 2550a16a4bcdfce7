/-
The characters of runs of bytes between the bytes that end cells.

* `Bytewise.Ends.Serves` — the bytes that end cells stand for the characters
  that do;
* `Dialect.charsOf` — the logical characters of bytes of a text;
* `Serves.isContent_of_mem` — what is no such byte makes no such character;
* `Serves.charsOf_run` — the characters of a text up to such a byte are those
  of a cell, one that ends it, and those of the rest.

Design notes: what stands between such bytes may be broken in any way.  It is
enough that ASCII is never part of a longer character.
-/
import Tabular.Proofs.Read.Split
import Tabular.Proofs.Read.Cell
import Tabular.Proofs.Text.Ascii

namespace Tabular

namespace Decode

/-- The units of a character, which is alone if it is ASCII. -/
theorem exists_eaten {e : Encoding} (he : e.isSingleByte) {units rest : List Nat} {c : Char}
    (hu : ∀ unit ∈ units, unit < 256) (h : first e units = some (c, rest)) :
    ∃ eaten, units = eaten ++ rest ∧ (c.toNat < 0x80 → eaten = [c.toNat]) := by
  cases units with
  | nil => simp at h
  | cons unit units =>
    by_cases hlt : unit < 0x80
    · rw [first_ascii he hlt] at h
      obtain ⟨rfl, rfl⟩ : Char.ofNat unit = c ∧ units = rest := by simpa using h
      refine ⟨[unit], rfl, fun _ => ?_⟩
      rw [toNat_ofNat (isValidChar_of_lt (by omega))]
    · obtain ⟨hc, eaten, heq, -⟩ :=
        first_above he (Nat.le_of_not_lt hlt) (hu unit (List.mem_cons_self ..)) h
      exact ⟨eaten, heq, fun hc' => absurd hc (Nat.not_le_of_lt hc')⟩

end Decode

namespace Strategy

variable {s : Strategy} {e : Encoding} {stop : Nat} {units : List Nat} {c : Scanned}

/-- An ASCII character of a text is one of its units. -/
theorem mem_of_mem_scanned (hs : s ≠ .raw) (he : e.isSingleByte)
    (hu : ∀ unit ∈ units, unit < 256) (hc : c ∈ s.scanned e stop units)
    (hascii : c.char.toNat < 0x80) : c.char.toNat ∈ units := by
  induction units using s.induction_first e with
  | nil => simp at hc
  | step units d rest hf ih =>
    rw [scanned_of_first hf] at hc
    rw [first_eq_decode hs] at hf
    obtain ⟨eaten, rfl, heaten⟩ := Decode.exists_eaten he hu hf
    rcases List.mem_cons.mp hc with rfl | hc
    · rw [heaten hascii]
      exact List.mem_append_left _ (List.mem_singleton_self _)
    · have := ih (fun unit h => hu unit (List.mem_append_right _ h)) hc
      exact List.mem_append_right _ this

/-- If the last character of a text is ASCII, it is the last unit. -/
theorem getLast?_of_scanned (hs : s ≠ .raw) (he : e.isSingleByte)
    (hu : ∀ unit ∈ units, unit < 256) (hc : c ∈ (s.scanned e stop units).getLast?)
    (hascii : c.char.toNat < 0x80) : units.getLast? = some c.char.toNat := by
  induction units using s.induction_first e with
  | nil => simp at hc
  | step units d rest hf ih =>
    rw [scanned_of_first hf] at hc
    rw [first_eq_decode hs] at hf
    obtain ⟨eaten, rfl, heaten⟩ := Decode.exists_eaten he hu hf
    cases rest with
    | nil =>
      obtain rfl : _ = c := by simpa using hc
      rw [heaten hascii]
      rfl
    | cons unit rest =>
      obtain ⟨d', rest', hf'⟩ := s.exists_first e unit rest
      rw [scanned_of_first hf', List.getLast?_cons_cons, ← scanned_of_first hf'] at hc
      rw [List.getLast?_append, ih (fun unit h => hu unit (List.mem_append_right _ h)) hc]
      rfl

/-- A text can be cut at a byte that is ASCII. -/
theorem scanned_cut (he : e.isSingleByte) {b : UInt8} (hb : b.toNat < 0x80)
    {run rest : List UInt8} {position : Nat}
    (hstop : position + run.length + 1 + rest.length = stop) :
    Strategy.decode.scanned e stop ((run ++ b :: rest).map UInt8.toNat) =
      Strategy.decode.scanned e (position + run.length) (run.map UInt8.toNat) ++
        ⟨Char.ofNat b.toNat, position + run.length, position + run.length + 1⟩ ::
          Strategy.decode.scanned e stop (rest.map UInt8.toNat) := by
  have hfirst : Strategy.decode.first e (b.toNat :: rest.map UInt8.toNat) =
      some (Char.ofNat b.toNat, rest.map UInt8.toNat) := Decode.first_ascii he hb _
  have hw := Encoding.unitWidth_eq_one he
  have hb : stop - (rest.length + 1) = position + run.length := by omega
  have hrest : stop - rest.length = position + run.length + 1 := by omega
  rw [List.map_append, List.map_cons,
    scanned_append (by decide) (Decode.fresh_ascii (by assumption) _), scanned_of_first hfirst]
  simp only [hw, Nat.one_mul, List.length_cons, List.length_map, hb, hrest]

/-- The last character ends where the text does. -/
theorem stop_of_getLast?_scanned (hc : c ∈ (s.scanned e stop units).getLast?) :
    c.span.stop = stop := by
  induction units using s.induction_first e with
  | nil => simp at hc
  | step units d rest hf ih =>
    rw [scanned_of_first hf] at hc
    cases rest with
    | nil =>
      obtain rfl : _ = c := by simpa using hc
      simp
    | cons unit rest =>
      obtain ⟨d', rest', hf'⟩ := s.exists_first e unit rest
      rw [scanned_of_first hf', List.getLast?_cons_cons, ← scanned_of_first hf'] at hc
      exact ih hc

/-- A text begins where as many bytes are left as it has. -/
theorem offsetOf_scanned (units : List Nat) :
    offsetOf stop (s.scanned e stop units) = stop - e.unitWidth * units.length := by
  cases units with
  | nil => simp [offsetOf]
  | cons unit units =>
    obtain ⟨c, rest, hf⟩ := s.exists_first e unit units
    rw [scanned_of_first hf]
    rfl

end Strategy

/-! ### Bytes and characters that end cells -/

theorem ofNat_inj_ascii {a b : UInt8} (ha : a.toNat < 0x80) (hb : b.toNat < 0x80) :
    Char.ofNat a.toNat = Char.ofNat b.toNat ↔ a = b := by
  constructor
  · intro h
    have h := congrArg Char.toNat h
    rw [toNat_ofNat (isValidChar_of_lt (by omega)), toNat_ofNat (isValidChar_of_lt (by omega))] at h
    exact UInt8.toNat_inj.mp h
  · intro h
    rw [h]

theorem Bytewise.toNat_lt (bytes : List UInt8) : ∀ unit ∈ bytes.map UInt8.toNat, unit < 256 := by
  rintro _ hu
  obtain ⟨b, -, rfl⟩ := List.mem_map.mp hu
  exact b.toNat_lt

namespace Bytewise.Ends

/-- The bytes stand for the characters that end cells, which nothing else in
the dialect interferes with. -/
structure Serves (d : Ends) (f : Dialect) : Prop where
  separator : f.separator = .char (Char.ofNat d.separator.toNat)
  lineEnd : f.lineEnd = .char (Char.ofNat d.lineEnd.toNat)
  separator_lt : d.separator.toNat < 0x80
  lineEnd_lt : d.lineEnd.toNat < 0x80
  folds : d.folds = f.folds
  enclosing : f.enclosing = .off
  trims : f.trims = false

/-- The cell is the run, or all of it but a carriage return. -/
theorem cellBytes_prefix (d : Ends) (run : List UInt8) (b : UInt8) :
    d.cellBytes run b <+: run := by
  rw [cellBytes]
  split_ifs
  · exact List.dropLast_prefix run
  · exact List.prefix_refl run

end Bytewise.Ends

theorem Delimiter.eq_of_asciiByte? {p : Delimiter} {b : UInt8} (h : p.asciiByte? = some b) :
    p = .char (Char.ofNat b.toNat) ∧ b.toNat < 0x80 := by
  cases p with
  | off | auto => simp [asciiByte?] at h
  | char c =>
    rw [asciiByte?] at h
    split_ifs at h with hc
    obtain rfl := Option.some.inj h
    rw [UInt8.toNat_ofNat', Nat.mod_eq_of_lt (Nat.lt_trans hc (by decide)), Char.ofNat_toNat]
    exact ⟨rfl, hc⟩

/-- A format that can be split as bytes has bytes that serve it. -/
theorem Format.exists_serves {f : Format} {e : Encoding} (h : f.splitsBytes e) :
    ∃ d, f.byteEnds? = some d ∧ d.Serves f.toDialect ∧ e.isSingleByte := by
  obtain ⟨⟨⟨henc, hd⟩, htrims⟩, he⟩ :
      ((f.enclosing = .off ∧ f.byteEnds?.isSome) ∧ f.trims = false) ∧ e.isSingleByte := by
    simpa [splitsBytes] using h
  obtain ⟨d, hd⟩ := Option.isSome_iff_exists.mp hd
  refine ⟨d, hd, ?_, he⟩
  simp only [byteEnds?, Option.bind_eq_bind, Option.bind_eq_some_iff, Option.pure_def,
    Option.some.injEq] at hd
  obtain ⟨sep, hsep, eol, heol, rfl⟩ := hd
  obtain ⟨hsep, hsep'⟩ := Delimiter.eq_of_asciiByte? hsep
  obtain ⟨heol, heol'⟩ := Delimiter.eq_of_asciiByte? heol
  exact ⟨hsep, heol, hsep', heol', rfl, henc, htrims⟩

/-- Separator and line end are one character just if they are one byte. -/
theorem Format.separator_eq_lineEnd_iff {f : Format} {e : Encoding} {d : Bytewise.Ends}
    (hd : f.byteEnds? = some d) (hs : f.splitsBytes e) :
    f.separator = f.lineEnd ↔ d.separator = d.lineEnd := by
  obtain ⟨d', hd', hserves, -⟩ := Format.exists_serves hs
  obtain rfl : d = d' := Option.some.inj (hd.symm.trans hd')
  rw [hserves.separator, hserves.lineEnd, Delimiter.char.injEq,
    ofNat_inj_ascii hserves.separator_lt hserves.lineEnd_lt]

namespace Dialect

/-- Whether folding reaches the separator: one half of CR LF separates cells
where the whole is one character. -/
def foldsSeparator (f : Dialect) : Prop :=
  f.folds ∧ (f.separator = .char '\r' ∨ f.separator = .char '\n')

instance (f : Dialect) : Decidable f.foldsSeparator :=
  inferInstanceAs (Decidable (_ ∧ _))

/-- The logical characters of bytes that end at offset `stop`. -/
def charsOf (f : Dialect) (e : Encoding) (stop : Nat) (bytes : List UInt8) : List Scanned :=
  logical f.folds (Strategy.decode.scanned e stop (bytes.map UInt8.toNat))

theorem offsetOf_charsOf {f : Dialect} {e : Encoding} (he : e.isSingleByte) (stop : Nat)
    (bytes : List UInt8) : offsetOf stop (f.charsOf e stop bytes) = stop - bytes.length := by
  rw [charsOf, offsetOf_logical, Strategy.offsetOf_scanned, Encoding.unitWidth_eq_one he,
    Nat.one_mul, List.length_map]

/-- Where only line feeds end lines, or nothing is folded. -/
theorem lineEnd_of_folds {f : Dialect} (hf : f.folds) (h : f.lineEnd ≠ .auto) :
    f.lineEnd = .char '\n' := by
  simp only [folds, Bool.and_eq_true, Bool.or_eq_true, beq_iff_eq] at hf
  exact hf.2.resolve_right h

/-- The characters up to a byte, unless it is one half of CR LF. -/
theorem charsOf_byte {f : Dialect} {e : Encoding} (he : e.isSingleByte) {run rest : List UInt8}
    {b : UInt8} (hb : b.toNat < 0x80) {position stop : Nat}
    (hstop : position + run.length + 1 + rest.length = stop) (hcr : f.folds → b ≠ 13)
    (hlf : f.folds → b = 10 → run.getLast? ≠ some 13) :
    f.charsOf e stop (run ++ b :: rest) =
      f.charsOf e (position + run.length) run ++
        ⟨Char.ofNat b.toNat, position + run.length, position + run.length + 1⟩ ::
          f.charsOf e stop rest := by
  have hafter : ∀ c : Scanned, c.char = Char.ofNat b.toNat →
      logical f.folds (c :: Strategy.decode.scanned e stop (rest.map UInt8.toNat)) =
        c :: f.charsOf e stop rest := by
    intro c hc
    refine logical_cons fun hfolds h13 => ?_
    rw [hc] at h13
    exact absurd ((ofNat_inj_ascii hb (show (13 : UInt8).toNat < 0x80 by decide)).mp h13)
      (hcr hfolds)
  rw [charsOf, Strategy.scanned_cut he hb hstop, logical_append, hafter _ rfl]
  · rfl
  · intro hfolds c hc hc13 x hx hx10
    obtain rfl : _ = x := by simpa using hx
    have h10 : b = 10 := (ofNat_inj_ascii hb (show (10 : UInt8).toNat < 0x80 by decide)).mp hx10
    -- A run whose last character is a carriage return ends with its byte.
    have hlast := Strategy.getLast?_of_scanned (by decide) he (Bytewise.toNat_lt run) hc
      (by rw [hc13]; decide)
    rw [hc13, List.getLast?_map, Option.map_eq_some_iff] at hlast
    obtain ⟨x, hx, hx13⟩ := hlast
    have hx13 : x = 13 := UInt8.toNat_inj.mp hx13
    exact hlf hfolds h10 (hx13 ▸ hx)

/-- The characters up to CR LF, which is one of them. -/
theorem charsOf_crlf {f : Dialect} {e : Encoding} (he : e.isSingleByte) (hfolds : f.folds)
    {run rest : List UInt8} {position stop : Nat}
    (hstop : position + run.length + 2 + rest.length = stop) :
    f.charsOf e stop (run ++ 13 :: 10 :: rest) =
      f.charsOf e (position + run.length) run ++
        ⟨'\n', position + run.length, position + run.length + 2⟩ :: f.charsOf e stop rest := by
  have hcr : position + run.length + 1 + (10 :: rest).length = stop := by
    rw [List.length_cons]
    omega
  have hlf := Strategy.scanned_cut he (show (10 : UInt8).toNat < 0x80 by decide)
    (show position + run.length + 1 + ([] : List UInt8).length + 1 + rest.length = stop by
      rw [List.length_nil]; omega)
  rw [List.nil_append, List.map_nil, Strategy.scanned_nil, List.nil_append, List.length_nil,
    Nat.add_zero] at hlf
  rw [charsOf, Strategy.scanned_cut he (show (13 : UInt8).toNat < 0x80 by decide) hcr, hlf,
    logical_append, hfolds, logical_crlf rfl rfl, charsOf, charsOf, hfolds]
  -- The run is not cut inside of CR LF: what comes next is the carriage return.
  rintro - _ - - c hc
  obtain rfl : _ = c := by simpa using hc
  exact (by decide : Char.ofNat (13 : UInt8).toNat ≠ '\n')

end Dialect

namespace Bytewise.Ends.Serves

variable {d : Ends} {f : Dialect} (h : d.Serves f)

include h

theorem settled : f.Settled := by
  refine ⟨?_, ?_, ?_⟩
  · rw [h.separator]
    simp
  · rw [h.enclosing]
    simp
  · rw [h.lineEnd]
    simp

theorem ends?_byte {b : UInt8} (hb : b.toNat < 0x80) :
    f.ends? (Char.ofNat b.toNat) =
      if b = d.separator then some .separator
      else if b = d.lineEnd then some .lineEnd else none := by
  have hsep := ofNat_inj_ascii h.separator_lt hb
  have heol := ofNat_inj_ascii h.lineEnd_lt hb
  rw [Dialect.ends?, h.separator, h.lineEnd]
  simp only [Delimiter.char.injEq, hsep, heol, @eq_comm _ d.separator, @eq_comm _ d.lineEnd]

theorem isContent_above {c : Scanned} (hc : 0x80 ≤ c.char.toNat) : f.isContent c := by
  have ne : ∀ b : UInt8, b.toNat < 0x80 → Char.ofNat b.toNat ≠ c.char := by
    intro b hb heq
    rw [← heq, toNat_ofNat (isValidChar_of_lt (by omega))] at hc
    omega
  have hsep := ne d.separator h.separator_lt
  have heol := ne d.lineEnd h.lineEnd_lt
  simp [Dialect.isContent, Dialect.ends?, h.separator, h.lineEnd, hsep, heol]

/-- A byte that ends a cell is ASCII. -/
theorem lt_of_not_isContent {b : UInt8} (hb : d.isContent b = false) : b.toNat < 0x80 := by
  rcases d.eq_of_not_isContent hb with rfl | rfl
  · exact h.separator_lt
  · exact h.lineEnd_lt

theorem isContent_byte {b : UInt8} {c : Scanned} (hb : b.toNat < 0x80)
    (hc : c.char = Char.ofNat b.toNat) : f.isContent c = d.isContent b := by
  rw [Dialect.isContent, hc, h.ends?_byte hb, isContent]
  by_cases hs : b = d.separator
  · simp [hs]
  · by_cases hl : b = d.lineEnd
    · rw [if_neg hs, if_pos hl, hl]
      simp
    · simp [hs, hl]

/-- What is no byte that ends a cell makes no character that does. -/
theorem isContent_of_mem {e : Encoding} (he : e.isSingleByte) {run : List UInt8}
    (hrun : ∀ b ∈ run, d.isContent b) {stop : Nat} {c : Scanned}
    (hc : c ∈ Strategy.decode.scanned e stop (run.map UInt8.toNat)) : f.isContent c := by
  by_cases hlt : c.char.toNat < 0x80
  · have hbytes : ∀ unit ∈ run.map UInt8.toNat, unit < 256 := by
      rintro _ hu
      obtain ⟨b, -, rfl⟩ := List.mem_map.mp hu
      exact b.toNat_lt
    have hmem := Strategy.mem_of_mem_scanned (by decide) he hbytes hc hlt
    obtain ⟨b, hb, hbc⟩ := List.mem_map.mp hmem
    rw [h.isContent_byte (hbc ▸ hlt) (by rw [hbc, Char.ofNat_toNat])]
    exact hrun b hb
  · exact h.isContent_above (Nat.le_of_not_lt hlt)

/-- Where CR LF is folded, line feeds end lines. -/
theorem lineEnd_eq (hf : f.folds) : d.lineEnd = 10 := by
  have heol := Dialect.lineEnd_of_folds hf h.settled.lineEnd
  rw [h.lineEnd] at heol
  exact (ofNat_inj_ascii h.lineEnd_lt (show (10 : UInt8).toNat < 0x80 by decide)).mp
    (Delimiter.char.inj heol)

/-- Between bytes that end cells nothing is folded. -/
theorem charsOf_content {e : Encoding} (he : e.isSingleByte) {run : List UInt8}
    (hrun : ∀ b ∈ run, d.isContent b) (stop : Nat) :
    f.charsOf e stop run = Strategy.decode.scanned e stop (run.map UInt8.toNat) := by
  refine logical_eq_self fun hf c hc heq => ?_
  have hcontent := h.isContent_of_mem he hrun hc
  rw [Dialect.isContent, Dialect.ends?, heq, Dialect.lineEnd_of_folds hf h.settled.lineEnd,
    if_pos rfl] at hcontent
  split at hcontent <;> simp at hcontent

/-- A cell is what stands before the first character that ends one. -/
theorem cellOf_append {as bs : List Scanned} (has : ∀ c ∈ as, f.isContent c)
    (hbs : ∀ c ∈ bs.head?, f.isContent c = false) (whitespace : List Char) :
    f.cellOf whitespace (as ++ bs) = ⟨as, false, bs⟩ := by
  have hcell : ∀ cs, f.cellOf whitespace cs =
      ⟨cs.takeWhile f.isContent, false, cs.dropWhile f.isContent⟩ := by
    intro cs
    rw [Dialect.cellOf, Dialect.trim, h.trims]
    cases cs with
    | nil => rfl
    | cons c cs =>
      show f.partsFrom c cs = _
      rw [Dialect.partsFrom, h.enclosing, if_neg (by simp)]
      rfl
  have hnil : bs.takeWhile f.isContent = [] ∧ bs.dropWhile f.isContent = bs := by
    cases bs with
    | nil => exact ⟨rfl, rfl⟩
    | cons c bs => simp [hbs c rfl]
  rw [hcell, List.takeWhile_append_of_pos has, List.dropWhile_append_of_pos has, hnil.1, hnil.2,
    List.append_nil]

/-- The characters up to the first byte that ends a cell: those of the cell,
and one on that byte and on a carriage return that belongs to it. -/
theorem charsOf_run {e : Encoding} (he : e.isSingleByte) (hf : ¬ f.foldsSeparator)
    {run rest : List UInt8} {b : UInt8} (hrun : ∀ x ∈ run, d.isContent x)
    (hb : d.isContent b = false) {position stop : Nat}
    (hstop : position + run.length + 1 + rest.length = stop) :
    let cell := d.cellBytes run b
    f.charsOf e stop (run ++ b :: rest) =
      f.charsOf e (position + cell.length) cell ++
        ⟨Char.ofNat b.toNat, position + cell.length, position + run.length + 1⟩ ::
          f.charsOf e stop rest := by
  have hascii := h.lt_of_not_isContent hb
  have hsep : f.folds → b = d.separator → b ≠ 13 ∧ b ≠ 10 := by
    rintro hfolds rfl
    have hs := h.separator
    constructor
    · intro h13
      rw [h13] at hs
      exact hf ⟨hfolds, .inl hs⟩
    · intro h10
      rw [h10] at hs
      exact hf ⟨hfolds, .inr hs⟩
  have hend : f.folds → b ≠ d.separator → b = 10 := by
    intro hfolds hne
    rw [(d.eq_of_not_isContent hb).resolve_left hne, h.lineEnd_eq hfolds]
  dsimp only
  rw [cellBytes]
  split_ifs with hcr
  · -- The carriage return and the line feed make one character.
    obtain ⟨hfolds, hne, hlast⟩ := hcr
    rw [h.folds] at hfolds
    obtain ⟨run, rfl⟩ := List.getLast?_eq_some_iff.mp hlast
    obtain rfl := hend hfolds hne
    rw [List.length_append, List.length_singleton] at hstop ⊢
    rw [List.dropLast_concat, List.append_assoc, List.singleton_append]
    exact Dialect.charsOf_crlf he hfolds (by omega)
  · refine Dialect.charsOf_byte he hascii hstop ?_ ?_
    · intro hfolds h13
      by_cases hs : b = d.separator
      · exact (hsep hfolds hs).1 h13
      · rw [hend hfolds hs] at h13
        exact absurd h13 (by decide)
    · -- The cell would have dropped the carriage return.
      intro hfolds h10 hlast
      exact hcr ⟨h.folds ▸ hfolds, fun hs => (hsep hfolds hs).2 h10, hlast⟩

end Bytewise.Ends.Serves

end Tabular
