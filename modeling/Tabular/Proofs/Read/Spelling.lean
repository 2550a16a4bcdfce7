/-
How a cell is spelled.

* `Spells` — the characters that spell a cell and what comes after it;
* `exists_spells` — all characters spell a cell;
* `Dialect.follows_readCell` — which is the one that they are read as;
* `Reader.logicalRest` — the logical characters that a reader has before it;
* `Reader.Reached` — a reader of a text in memory, wherever it may be between
  two cells;
* `Reader.readCell_spelled` — it reads the cell that these characters spell.

Design notes: a cell between quotes is spelled with every quote of it twice, so
the grammar speaks of the text and not of how its end is found.
-/
import Tabular.Proofs.Read.Decoded
import Tabular.Proofs.Read.Folding
import Tabular.Proofs.Read.Progress

namespace Tabular

/-! ### The grammar -/

/-- The text of a cell, and what comes after it, beginning with its
terminator. -/
structure Spelling where
  text : List Char
  enclosed : Bool
  after : List Char

/-- What ends the cell.  If the same character is separator and line end, it is
a separator. -/
def Spelling.ending (separator : Char) (x : Spelling) : CellEnd :=
  match x.after with
  | [] => .inputEnd
  | c :: _ => .terminator (if c = separator then .separator else .lineEnd)

/-- Whether a character ends no cell. -/
def isText (separator lineEnd c : Char) : Bool := c != separator && c != lineEnd

/-- A text with every quote written twice. -/
def doubled (quote : Char) (text : List Char) : List Char :=
  text.flatMap fun c => if c = quote then [quote, quote] else [c]

/-- The characters that spell a cell, and what comes after it. -/
inductive Spells (separator lineEnd quote : Char) : List Char → Spelling → Prop
  /-- Without a quote before it a cell goes up to its terminator. -/
  | naked {w : List Char} (hquote : w.head? ≠ some quote) :
      Spells separator lineEnd quote w
        ⟨w.takeWhile (isText separator lineEnd), false, w.dropWhile (isText separator lineEnd)⟩
  /-- What follows the closing quote belongs to the cell up to its
  terminator. -/
  | closed {inner rest : List Char} (hquote : rest.head? ≠ some quote) :
      Spells separator lineEnd quote (quote :: (doubled quote inner ++ quote :: rest))
        ⟨inner ++ rest.takeWhile (isText separator lineEnd), true,
          rest.dropWhile (isText separator lineEnd)⟩
  /-- Without a closing quote everything belongs to the cell. -/
  | unclosed {inner : List Char} :
      Spells separator lineEnd quote (quote :: doubled quote inner) ⟨inner, true, []⟩

section

variable {s l q c : Char}

@[simp] theorem doubled_nil : doubled q [] = [] := rfl

theorem doubled_quote (text : List Char) : doubled q (q :: text) = q :: q :: doubled q text := by
  rw [doubled, List.flatMap_cons, if_pos rfl]
  rfl

theorem doubled_cons (hc : c ≠ q) (text : List Char) :
    doubled q (c :: text) = c :: doubled q text := by
  rw [doubled, List.flatMap_cons, if_neg hc]
  rfl

/-- Quotes are taken in pairs from the left, up to one that has none beside
it. -/
theorem exists_doubled (q : Char) (w : List Char) :
    (∃ inner, w = doubled q inner) ∨
      ∃ inner rest, w = doubled q inner ++ q :: rest ∧ rest.head? ≠ some q := by
  induction hn : w.length using Nat.strongRecOn generalizing w with
  | _ n ih =>
    subst hn
    cases w with
    | nil => exact .inl ⟨[], rfl⟩
    | cons c w =>
      by_cases hc : c = q
      · subst hc
        cases w with
        | nil => exact .inr ⟨[], [], rfl, by simp⟩
        | cons d w =>
          by_cases hd : d = c
          · subst hd
            rcases ih w.length (by simp only [List.length_cons]; omega) w rfl with
              ⟨inner, rfl⟩ | ⟨inner, rest, rfl, hrest⟩
            · exact .inl ⟨d :: inner, (doubled_quote inner).symm⟩
            · exact .inr ⟨d :: inner, rest, by rw [doubled_quote]; rfl, hrest⟩
          · exact .inr ⟨[], d :: w, rfl, by simpa using hd⟩
      · rcases ih w.length (by simp) w rfl with ⟨inner, rfl⟩ | ⟨inner, rest, rfl, hrest⟩
        · exact .inl ⟨c :: inner, (doubled_cons hc inner).symm⟩
        · exact .inr ⟨c :: inner, rest, by rw [doubled_cons hc]; rfl, hrest⟩

/-- The characters after the whitespace that a cell is trimmed of. -/
def afterWhitespace (trims : Bool) (whitespace : List Char) (separator lineEnd : Char)
    (w : List Char) : List Char :=
  if trims then w.dropWhile fun c => whitespace.contains c && isText separator lineEnd c else w

/-- All characters spell a cell. -/
theorem exists_spells (s l q : Char) (w : List Char) : ∃ x, Spells s l q w x := by
  by_cases hw : w.head? = some q
  · obtain ⟨w, rfl⟩ := List.head?_eq_some_iff.mp hw
    rcases exists_doubled q w with ⟨inner, rfl⟩ | ⟨inner, rest, rfl, hrest⟩
    · exact ⟨_, .unclosed⟩
    · exact ⟨_, .closed hrest⟩
  · exact ⟨_, .naked hw⟩

end

/-! ### Reading a cell -/

/-- A cell that was read is the one that was spelled. -/
structure CellRead.Follows (p : CellRead) (d : Dialect) (s : Char) (x : Spelling) : Prop where
  kept : p.kept.map Scanned.char = x.text
  enclosed : p.enclosed = x.enclosed
  ending : p.ending = x.ending s
  dialect : p.dialect = d
  rest : p.rest.map Scanned.char = x.after.tail

namespace CellRead.Follows

variable {p : CellRead} {d : Dialect} {s : Char} {text after : List Char} {enclosed : Bool}

theorem keep (h : p.Follows d s ⟨text, enclosed, after⟩) (c : Scanned) :
    (p.keep c).Follows d s ⟨c.char :: text, enclosed, after⟩ :=
  ⟨congrArg (c.char :: ·) h.kept, h.enclosed, h.ending, h.dialect, h.rest⟩

theorem mark (h : p.Follows d s ⟨text, enclosed, after⟩) (marked : Bool) :
    CellRead.Follows { p with enclosed := marked } d s ⟨text, marked, after⟩ :=
  ⟨h.kept, rfl, h.ending, h.dialect, h.rest⟩

end CellRead.Follows

namespace Dialect

/-- A dialect in which everything is known and nothing is folded. -/
structure Knows (d : Dialect) (s l q : Char) : Prop where
  separator : d.separator = .char s
  lineEnd : d.lineEnd = .char l
  enclosing : d.enclosing = .char q
  folds : d.folds = false

namespace Knows

variable {d : Dialect} {s l q : Char} (hd : d.Knows s l q) (stop : Nat)

include hd

theorem terminator? (c : Char) :
    d.terminator? c =
      if c = s then some (.separator, d) else if c = l then some (.lineEnd, d) else none := by
  obtain ⟨separator, enclosing, lineEnd, trims, keepsCrLf⟩ := d
  obtain ⟨rfl, rfl, rfl, -⟩ := hd
  simp only [Dialect.terminator?, Delimiter.accepts, beq_iff_eq, eq_comm (b := c)]
  split_ifs with hc hc'
  · rw [hc]
  · rw [hc']
  · rfl

theorem opens? (c : Char) : d.opens? c = if c = q then some d else none := by
  obtain ⟨separator, enclosing, lineEnd, trims, keepsCrLf⟩ := d
  obtain ⟨rfl, rfl, rfl, -⟩ := hd
  simp only [Dialect.opens?, Delimiter.accepts, beq_iff_eq, eq_comm (b := c)]
  split_ifs with hc
  · rw [hc]
  · rfl

theorem terminator?_text {c : Char} (hc : isText s l c) : d.terminator? c = none := by
  obtain ⟨hs, hl⟩ : c ≠ s ∧ c ≠ l := by simpa [isText] using hc
  rw [hd.terminator?, if_neg hs, if_neg hl]

theorem terminator?_ends {c : Char} (hc : isText s l c = false) :
    d.terminator? c = some (if c = s then .separator else .lineEnd, d) := by
  rw [hd.terminator?]
  split_ifs with hs hl
  · rfl
  · rfl
  · simp [isText, hs, hl] at hc

theorem uncons_cons (c : Scanned) (cs : List Scanned) :
    uncons d.folds (c :: cs) = some (c, cs) := by
  rw [hd.folds, uncons_false_cons]

/-- Outside quotes a cell goes up to its terminator. -/
theorem follows_readNaked (c : Scanned) (cs : List Scanned) :
    let w := (c :: cs).map Scanned.char
    (d.readNaked stop c cs).Follows d s
      ⟨w.takeWhile (isText s l), false, w.dropWhile (isText s l)⟩ := by
  induction cs generalizing c with
  | nil =>
    rw [readNaked]
    cases hc : isText s l c.char with
    | false =>
      rw [hd.terminator?_ends hc]
      simpa [hc] using ⟨rfl, rfl, rfl, rfl, rfl⟩
    | true =>
      rw [hd.terminator?_text hc]
      simpa [hc, uncons] using ⟨rfl, rfl, rfl, rfl, rfl⟩
  | cons c' cs ih =>
    rw [readNaked]
    cases hc : isText s l c.char with
    | false =>
      rw [hd.terminator?_ends hc]
      simpa [hc] using ⟨rfl, rfl, rfl, rfl, rfl⟩
    | true =>
      rw [hd.terminator?_text hc]
      dsimp only
      rw [hd.uncons_cons]
      simpa [hc] using (ih c').keep c

/-- A character between quotes, which is written twice if it is a quote. -/
theorem readEnclosed_doubled {x : Char} {inner w : List Char} {cs : List Scanned}
    (h : cs.map Scanned.char = doubled q (x :: inner) ++ w) :
    ∃ c rest, c.char = x ∧ rest.map Scanned.char = doubled q inner ++ w ∧
      d.readEnclosed stop q cs = (d.readEnclosed stop q rest).keep c := by
  by_cases hx : x = q
  · subst hx
    rw [doubled_quote] at h
    obtain ⟨c, cs, rfl, hc, h⟩ := List.map_eq_cons_iff.mp h
    obtain ⟨c', rest, rfl, hc', h⟩ := List.map_eq_cons_iff.mp h
    refine ⟨c, rest, hc, h, ?_⟩
    rw [readEnclosed, hd.uncons_cons]
    dsimp only
    rw [if_neg (not_not_intro hc), hd.uncons_cons]
    exact if_pos hc'
  · rw [doubled_cons hx] at h
    obtain ⟨c, rest, rfl, hc, h⟩ := List.map_eq_cons_iff.mp h
    refine ⟨c, rest, hc, h, ?_⟩
    rw [readEnclosed, hd.uncons_cons]
    exact if_pos (hc.trans_ne hx)

/-- Up to the end of the text, if there is no closing quote. -/
theorem follows_readEnclosed_unclosed {inner : List Char} {cs : List Scanned}
    (h : cs.map Scanned.char = doubled q inner) :
    CellRead.Follows { d.readEnclosed stop q cs with enclosed := true } d s ⟨inner, true, []⟩ := by
  induction inner generalizing cs with
  | nil =>
    obtain rfl := List.map_eq_nil_iff.mp h
    rw [readEnclosed, uncons]
    exact ⟨rfl, rfl, rfl, rfl, rfl⟩
  | cons x inner ih =>
    rw [← List.append_nil (doubled q _)] at h
    obtain ⟨c, rest, rfl, hrest, hgoes⟩ := hd.readEnclosed_doubled stop h
    rw [hgoes]
    exact (ih (hrest.trans (List.append_nil _))).keep c

/-- Up to the closing quote, and from there on as outside quotes. -/
theorem follows_readEnclosed_closed {inner rest : List Char} (hquote : rest.head? ≠ some q)
    {cs : List Scanned} (h : cs.map Scanned.char = doubled q inner ++ q :: rest) :
    CellRead.Follows { d.readEnclosed stop q cs with enclosed := true } d s
      ⟨inner ++ rest.takeWhile (isText s l), true, rest.dropWhile (isText s l)⟩ := by
  induction inner generalizing cs with
  | nil =>
    obtain ⟨c, cs, rfl, hc, h⟩ := List.map_eq_cons_iff.mp h
    subst h
    rw [readEnclosed, hd.uncons_cons]
    dsimp only
    rw [if_neg (not_not_intro hc)]
    cases cs with
    | nil =>
      rw [uncons]
      exact ⟨rfl, rfl, rfl, rfl, rfl⟩
    | cons c' cs =>
      rw [hd.uncons_cons]
      dsimp only
      rw [if_neg fun hc' => hquote (congrArg some hc')]
      exact (hd.follows_readNaked stop c' cs).mark true
  | cons x inner ih =>
    obtain ⟨c, cs', rfl, hcs, hgoes⟩ := hd.readEnclosed_doubled stop h
    rw [hgoes]
    exact (ih hcs).keep c

/-- Whitespace is passed over up to a character that is none, or that ends the
cell. -/
theorem seek_eq (whitespace : List Char) (cs : List Scanned) :
    d.seek whitespace cs =
      match cs.dropWhile fun c => whitespace.contains c.char && isText s l c.char with
      | [] => none
      | c :: rest => some (c, rest, d) := by
  induction cs with
  | nil =>
    rw [seek, uncons]
    rfl
  | cons c cs ih =>
    rw [seek, hd.uncons_cons, List.dropWhile_cons]
    dsimp only
    by_cases hw : whitespace.contains c.char
    · rw [if_pos hw, hw, Bool.true_and]
      cases hc : isText s l c.char with
      | false =>
        rw [hd.terminator?_ends hc]
        rfl
      | true =>
        rw [hd.terminator?_text hc]
        exact ih
    · rw [if_neg hw, Bool.not_eq_true _ |>.mp hw]
      rfl

theorem exists_readFirst (whitespace : List Char) (cs : List Scanned) :
    ∃ rest, rest.map Scanned.char = afterWhitespace d.trims whitespace s l (cs.map Scanned.char) ∧
      d.readFirst whitespace cs =
        match rest with
        | [] => none
        | c :: rest => some (c, rest, d) := by
  rw [readFirst, afterWhitespace]
  split
  · exact ⟨_, (List.dropWhile_map ..).symm, hd.seek_eq whitespace cs⟩
  · refine ⟨cs, rfl, ?_⟩
    cases cs with
    | nil => rfl
    | cons c cs =>
      rw [hd.uncons_cons]
      rfl

/-- The cell that is spelled is read. -/
theorem follows_readCell {whitespace : List Char} {cs : List Scanned} {x : Spelling}
    (h : Spells s l q (afterWhitespace d.trims whitespace s l (cs.map Scanned.char)) x) :
    (d.readCell stop whitespace cs).Follows d s x := by
  obtain ⟨rest, hrest, hfirst⟩ := hd.exists_readFirst whitespace cs
  rw [← hrest] at h
  rw [readCell, hfirst]
  cases rest with
  | nil =>
    cases h with
    | naked hquote => exact ⟨rfl, rfl, rfl, rfl, rfl⟩
  | cons c rest =>
    dsimp only
    rw [readFrom, hd.opens?]
    generalize hw : (c :: rest).map Scanned.char = w at h
    cases h with
    | naked hquote =>
      subst hw
      rw [if_neg fun hc => hquote (congrArg some hc)]
      exact hd.follows_readNaked stop c rest
    | closed hquote =>
      obtain ⟨hc, hw⟩ := List.cons.inj hw
      rw [if_pos hc, hc]
      exact hd.follows_readEnclosed_closed stop hquote hw
    | unclosed =>
      obtain ⟨hc, hw⟩ := List.cons.inj hw
      rw [if_pos hc, hc]
      exact hd.follows_readEnclosed_unclosed stop hw

end Knows

/-- Where everything is known there is nothing to learn. -/
theorem Knows.eq_of_learnsTo {d e : Dialect} {s l q : Char} (hs : d.separator = .char s)
    (hl : d.lineEnd = .char l) (hq : d.enclosing = .char q) (h : d.LearnsTo e) : e = d := by
  have hseparator := (hs ▸ h.separator).eq_of_char
  have hlineEnd := (hl ▸ h.lineEnd).eq_of_char
  have henclosing := (hq ▸ h.enclosing).eq_of_char
  obtain ⟨separator, enclosing, lineEnd, trims, keepsCrLf⟩ := d
  obtain ⟨separator', enclosing', lineEnd', trims', keepsCrLf'⟩ := e
  obtain ⟨rfl, rfl, rfl⟩ : separator = .char s ∧ lineEnd = .char l ∧ enclosing = .char q :=
    ⟨hs, hl, hq⟩
  obtain ⟨rfl, rfl, rfl, rfl, rfl⟩ : separator' = .char s ∧ lineEnd' = .char l ∧
      enclosing' = .char q ∧ trims = trims' ∧ keepsCrLf = keepsCrLf' :=
    ⟨hseparator, hlineEnd, henclosing, h.trims, h.keepsCrLf⟩
  rfl

end Dialect

/-! ### The reader -/

namespace Reader

/-- The characters still to come: one that has been read ahead, and those that
the units to come are decoded as. -/
def decodedRest (r : Reader) : List Char :=
  (r.chars.ahead.map Scanned.char).toList ++
    r.encoding.decode (r.chars.units.toCome r.chars.units.source.rest)

/-- The logical characters still to come. -/
def logicalRest (r : Reader) : List Char :=
  if r.dialect.folds then joinPairs '\r' '\n' r.decodedRest else r.decodedRest

/-- A reader of a text in memory, wherever it may be between two cells: after
cells or rows have been read, and whatever has been done to its buffer. -/
inductive Reached (bytes : List UInt8) (f : Format) (o : ReadOptions) : Reader → Prop
  | start {r : Reader} (h : ofBytes bytes f o = .ok r) : Reached bytes f o r
  | cell {r r' : Reader} {ending : CellEnd} (hr : Reached bytes f o r)
      (h : r.readCell = .ok ending r') : Reached bytes f o r'
  | row {r r' : Reader} {judge : Judge} {row : Nat} {found : Bool} (hr : Reached bytes f o r)
      (h : r.readRow judge row = .ok found r') : Reached bytes f o r'
  | buffer {r : Reader} (hr : Reached bytes f o r) (buffer : CellBuffer) :
      Reached bytes f o { r with buffer }
  | collect {r : Reader} (hr : Reached bytes f o r) : Reached bytes f o r.collect.2

variable {bytes : List UInt8} {f : Format} {o : ReadOptions} {r : Reader} {s l q : Char}

theorem Reached.within (h : r.Reached bytes f o) : r.chars.Within bytes := by
  induction h with
  | start h =>
    cases hr : f.encoding.resolve (bytes.take 4) with
    | mk e start =>
      cases hcheck : (o.strategy.getD .decode).check f e true with
      | error err =>
        rw [ofBytes_eq o hr, hcheck] at h
        exact absurd h (by simp [Except.map])
      | ok =>
        obtain ⟨units, hof, hunits, -⟩ := exists_within hr hcheck
        obtain rfl := Except.ok.inj (hof.symm.trans h)
        exact ⟨hunits, by simp [fresh]⟩
  | cell hr h ih =>
    rename_i r r' ending
    exact succeeds_readCell (Chars.keeps_bytes bytes) h ih
  | row hr h ih =>
    rename_i r r' judge row found
    exact succeeds_readRow (Chars.keeps_bytes bytes) h ih
  | buffer hr buffer ih => exact ih
  | collect hr ih => exact ih

/-- What a reader has before it are the characters still to come. -/
theorem Faces.map_char {e : Encoding} {stop : Nat} {cs : List Scanned} (h : r.Faces e stop cs)
    (hs : r.strategy = .decode) (hsteady : r.chars.units.source.Steady) :
    cs.map Scanned.char = r.decodedRest := by
  have hgives := h.gives
  rw [hs] at hgives
  obtain ⟨more, hmore, rfl⟩ := hgives.units
  rw [List.map_append, hmore.map_char ⟨hsteady, rfl⟩, decodedRest]
  cases r.chars.ahead <;> rfl

/-- The characters before a reader of a text in memory spell a cell, and the
cell that they spell is what is read of them.  What comes after its terminator
is still to come. -/
theorem readCell_spelled (h : r.Reached bytes f o) (hstrategy : r.strategy = .decode)
    (hs : r.dialect.separator = .char s) (hl : r.dialect.lineEnd = .char l)
    (hq : r.dialect.enclosing = .char q) :
    let w := afterWhitespace r.dialect.trims r.buffer.whitespace s l r.logicalRest
    (∃ x, Spells s l q w x) ∧
      ∀ x, Spells s l q w x →
        ∃ r', r.readCell = .ok (x.ending s) r' ∧ r'.cell.text = String.ofList x.text ∧
          r'.cell.enclosed = x.enclosed ∧ r'.phase = (x.ending s).phase ∧
          r'.logicalRest = x.after.tail ∧ r'.dialect = r.dialect ∧
          r'.strategy = r.strategy := by
  intro w
  refine ⟨exists_spells s l q w, fun x hx => ?_⟩
  have hwithin := h.within
  obtain ⟨cs, hgives⟩ := hwithin.exists_gives r.strategy
  have hfaces : r.Faces r.encoding bytes.length cs := ⟨hgives, rfl⟩
  have hrest := hfaces.map_char hstrategy hwithin.units.yields.steady
  obtain ⟨chars, hread, hfaces'⟩ := hfaces.readCell (.inl (by rw [hstrategy]; decide))
  generalize hp : r.dialect.readCell bytes.length r.buffer.whitespace cs = p at hread hfaces'
  -- Folded beforehand, the characters are those that the grammar speaks of.
  have hfollows : (p.folded r.dialect.folds).Follows r.dialect.keeping s x := by
    have hknows : r.dialect.keeping.Knows s l q := ⟨hs, hl, hq, rfl⟩
    rw [← hp, Dialect.folded_readCell _ (by rw [hl]; exact Delimiter.noConfusion)]
    refine hknows.follows_readCell _ ?_
    rw [map_char_logical, hrest]
    exact hx
  have hdialect : p.dialect = r.dialect :=
    Dialect.Knows.eq_of_learnsTo hs hl hq (learns_readCell hread :)
  have hending : p.ending = x.ending s := hfollows.ending
  have hsteady := (h.cell hread).within.units.yields.steady
  rw [hending] at hread
  refine ⟨_, hread, ?_, hfollows.enclosed, rfl, ?_, hdialect, rfl⟩
  · rw [hstrategy]
    exact (CellBuffer.text_toCell rfl rfl rfl ..).trans (congrArg String.ofList hfollows.kept)
  · have hfaces' : Faces { r with chars, dialect := p.dialect } r.encoding bytes.length p.rest :=
      hfaces'.congr rfl rfl
    have hrest' := hfaces'.map_char hstrategy hsteady
    rw [← hfollows.rest, CellRead.folded, map_char_logical, hrest', ← hdialect]
    rfl

/-- The second cell of a text, with a quote in it and a letter after it. -/
theorem readCell_spelled_quotes :
    let bytes : List UInt8 :=
      [0x78, 0x2C, 0x22, 0x62, 0x22, 0x22, 0x63, 0x22, 0x64, 0x0D, 0x0A, 0x79]
    ∃ r r' r'', ofBytes bytes .csv {} = .ok r ∧ r.readCell = .ok (.terminator .separator) r' ∧
      r'.readCell = .ok (.terminator .lineEnd) r'' ∧
      r''.cell.text = String.ofList ['b', '"', 'c', 'd'] ∧ r''.cell.enclosed = true ∧
      r''.logicalRest = ['y'] := by
  intro bytes
  let r := fresh ⟨.ofSource ((Source.ofBytes bytes).advance 0 bytes) .utf8, none⟩ .csv {} bytes
  have hof : ofBytes bytes .csv {} = .ok r := ofBytes_eq {} rfl
  have hr : r.Reached bytes .csv {} := .start hof
  have hrest : r.logicalRest =
      ['x', ',', '"', 'b', '"', '"', 'c', '"', 'd', '\n', 'y'] := by decide +kernel
  have hfirst : Spells ',' '\n' '"' ['x', ',', '"', 'b', '"', '"', 'c', '"', 'd', '\n', 'y']
      ⟨['x'], false, [',', '"', 'b', '"', '"', 'c', '"', 'd', '\n', 'y']⟩ := .naked (by decide)
  have hsecond : Spells ',' '\n' '"' ['"', 'b', '"', '"', 'c', '"', 'd', '\n', 'y']
      ⟨['b', '"', 'c', 'd'], true, ['\n', 'y']⟩ :=
    @Spells.closed ',' '\n' '"' ['b', '"', 'c'] ['d', '\n', 'y'] (by decide)
  -- The first cell leaves the reader where the second begins.
  obtain ⟨-, hcell⟩ := readCell_spelled hr rfl rfl rfl rfl
  obtain ⟨r', hread, -, -, -, hrest', hdialect, hstrategy⟩ := hcell _ (by rw [hrest]; exact hfirst)
  obtain ⟨-, hcell'⟩ := readCell_spelled (hr.cell hread) hstrategy (by rw [hdialect]; rfl)
    (by rw [hdialect]; rfl) (by rw [hdialect]; rfl)
  obtain ⟨r'', hread', htext, henclosed, -, hrest'', -⟩ :=
    hcell' _ (by rw [hrest', hdialect]; exact hsecond)
  exact ⟨r, r', r'', hof, hread, hread', htext, henclosed, hrest''⟩

end Reader

end Tabular
