/-
The bytes that characters were read from, and those between two cells.

* `Spelled` — characters that lie one after another up to the end of a text,
  each on the bytes that it is encoded as;
* `Units.Gives.spelled` — so do the characters that a reader is given;
* `Spelled.uncons` — a logical character lies on the bytes of one character,
  or on those of CR LF;
* `CellRead.Lies` — a cell that ends where its terminator begins;
* `Dialect.lies_readCell` — so does the cell that characters begin with.

Design notes: nothing is known of the bytes of U+FFFD, so it has to be no
terminator.  What ends a cell is told by the dialect at the start of the read:
what is detected later on has been accepted by that one.
-/
import Tabular.Proofs.Read.Heed
import Tabular.Proofs.Read.Within

namespace Tabular

variable {e : Encoding} {bytes : List UInt8} {cs rest : List Scanned} {c : Scanned} {start : Nat}

/-- Characters that lie one after another up to the end of a text, each on the
bytes that it is encoded as. -/
inductive Spelled (e : Encoding) (bytes : List UInt8) : List Scanned → Prop
  | nil : Spelled e bytes []
  | cons {c : Scanned} {cs : List Scanned} (lt : c.span.start < offsetOf bytes.length cs)
      (stop : c.span.stop = offsetOf bytes.length cs)
      (char : e.CharAt bytes c.span.start c.span.stop c.char) (rest : Spelled e bytes cs) :
      Spelled e bytes (c :: cs)

theorem Spelled.offsetOf_le (h : Spelled e bytes cs) : offsetOf bytes.length cs ≤ bytes.length := by
  induction h with
  | nil => exact Nat.le_refl _
  | cons lt stop char rest ih => exact Nat.le_of_lt (Nat.lt_of_lt_of_le lt ih)

/-- The characters that a reader is given are spelled out by the bytes. -/
theorem Units.Gives.spelled {s : Strategy} {u : Units} (hs : s ≠ .raw)
    (hg : u.Gives s bytes.length cs) (hu : u.Within bytes) : Spelled u.encoding bytes cs := by
  induction hg with
  | nil => exact .nil
  | cons hc he hlt hg ih =>
    rcases hu.scan s with ⟨u', hscan, -⟩ | ⟨c', u', hscan, hu', -, hspan, hlt', hchar⟩
    · exact absurd (hc.symm.trans hscan) (by simp)
    · obtain ⟨hc', rfl⟩ := EStateM.Result.ok.inj (hc.symm.trans hscan)
      obtain rfl := Option.some.inj hc'
      have hstop := hg.position
      have hchar := hchar hs
      rw [← he]
      refine .cons ?_ ?_ ?_ (ih hu')
      · rw [hspan, ← hstop]
        exact hlt'
      · rw [hspan, ← hstop]
      · rw [he, hspan]
        exact hchar

/-! ### Terminators -/

namespace Delimiter.LearnsTo

variable {candidates : List Char} {d d' : Delimiter} {c : Char}

/-- What is accepted later on was accepted before. -/
theorem accepts_of (h : LearnsTo candidates d d') (hc : d'.accepts candidates c) :
    d.accepts candidates c := by
  rcases h with rfl | ⟨rfl, x, hx, rfl⟩
  · exact hc
  · have hxc : x = c := by simpa [accepts] using hc
    rw [accepts, List.contains_iff_mem]
    exact hxc ▸ hx

end Delimiter.LearnsTo

namespace Dialect

variable {origin d d' : Dialect} {t : Terminator}

/-- CR LF is folded only if it was before. -/
theorem LearnsTo.folds_of (h : d.LearnsTo d') (hf : d'.folds) : d.folds := by
  rw [folds, Bool.and_eq_true, Bool.or_eq_true, beq_iff_eq, beq_iff_eq] at hf ⊢
  rw [h.keepsCrLf]
  refine ⟨hf.1, ?_⟩
  rcases h.lineEnd with heq | ⟨hauto, -⟩
  · rw [heq]
    exact hf.2
  · exact .inr hauto

/-- Whether a character ends cells, or would if it were the first that may. -/
def accepts (d : Dialect) : Terminator → Char → Bool
  | .separator, c => d.separator.accepts Delimiter.separatorCandidates c
  | .lineEnd, c => d.lineEnd.accepts Delimiter.lineEndCandidates c

/-- Texts that read as a character: itself, and for a line feed CR LF, if that
is folded. -/
def Reads (d : Dialect) (text : List Char) (c : Char) : Prop :=
  text = [c] ∨ d.folds ∧ text = ['\r', '\n'] ∧ c = '\n'

/-- The texts of a terminator. -/
def IsTerminator (d : Dialect) (t : Terminator) (text : List Char) : Prop :=
  ∃ c, d.accepts t c ∧ d.Reads text c

/-- What ends cells can be told from what cannot be decoded, which reads as
U+FFFD. -/
structure Legible (d : Dialect) : Prop where
  separator : d.separator ≠ .char replacement
  lineEnd : d.lineEnd ≠ .char replacement

theorem accepts_of_terminator (h : origin.LearnsTo d) {c : Char}
    (hc : d.terminator? c = some (t, d')) : origin.accepts t c := by
  rw [terminator?] at hc
  split at hc
  · rename_i hs
    obtain ⟨rfl, -⟩ := Prod.mk.inj (Option.some.inj hc)
    exact h.separator.accepts_of hs
  · split at hc
    · rename_i hl
      obtain ⟨rfl, -⟩ := Prod.mk.inj (Option.some.inj hc)
      exact h.lineEnd.accepts_of hl
    · exact absurd hc (by simp)

theorem Legible.ne_replacement (h : d.Legible) {c : Char} (hc : d.accepts t c) :
    c ≠ replacement := by
  rintro rfl
  have hnot : ∀ {candidates : List Char} {x : Delimiter}, x ≠ .char replacement →
      replacement ∉ candidates → x.accepts candidates replacement = false := by
    intro candidates x hx hmem
    cases x with
    | char x => exact beq_eq_false_iff_ne.mpr fun heq => hx (heq ▸ rfl)
    | off => rfl
    | auto => simpa [Delimiter.accepts] using hmem
  cases t with
  | separator => exact absurd hc (by rw [accepts, hnot h.separator (by decide)]; simp)
  | lineEnd => exact absurd hc (by rw [accepts, hnot h.lineEnd (by decide)]; simp)

/-- A logical character before others, on the bytes of a text that reads as
it. -/
structure Leads (d : Dialect) (e : Encoding) (bytes : List UInt8) (c : Scanned)
    (cs : List Scanned) : Prop where
  lt : c.span.start < offsetOf bytes.length cs
  text : c.char ≠ replacement → ∃ text, d.Reads text c.char ∧
    (Span.mk c.span.start (offsetOf bytes.length cs)).slice bytes = e.encode text
  rest : Spelled e bytes cs

end Dialect

/-- The first logical character. -/
theorem Spelled.uncons {d : Dialect} {folds : Bool} (h : Spelled e bytes cs) (hf : folds → d.folds)
    (hc : uncons folds cs = some (c, rest)) :
    d.Leads e bytes c rest ∧ c.span.start = offsetOf bytes.length cs := by
  have one : ∀ {c : Scanned} {cs : List Scanned}, Spelled e bytes (c :: cs) →
      d.Leads e bytes c cs ∧ c.span.start = offsetOf bytes.length (c :: cs) := by
    intro c cs h
    cases h with
    | cons lt stop char rest =>
      refine ⟨⟨lt, fun hne => ?_, rest⟩, rfl⟩
      obtain ⟨hrepresents, hslice⟩ := char hne
      rw [stop] at hslice
      exact ⟨[c.char], .inl rfl, hslice.trans (Encoding.encode_singleton hrepresents).symm⟩
  fun_cases Tabular.uncons folds cs with
  | case1 => simp [Tabular.uncons] at hc
  | case2 x =>
    obtain ⟨rfl, rfl⟩ := Prod.mk.inj (Option.some.inj hc)
    exact one h
  | case3 x y cs hfold =>
    rw [Tabular.uncons, if_pos hfold] at hc
    obtain ⟨rfl, rfl⟩ := Prod.mk.inj (Option.some.inj hc)
    obtain ⟨hcr, hfolds, hlf⟩ := hfold
    cases h with
    | cons lt stop char rest =>
      cases rest with
      | cons lt' stop' char' rest' =>
        -- The bytes of both halves are next to each other.
        have hstop : x.span.stop = y.span.start := stop
        have hlt : x.span.start < y.span.start := lt
        obtain ⟨hrepresents, hslice⟩ := char (by rw [hcr]; decide)
        obtain ⟨hrepresents', hslice'⟩ := char' (by rw [hlf]; decide)
        refine ⟨⟨Nat.lt_trans hlt lt', fun _ => ?_, rest'⟩, rfl⟩
        refine ⟨['\r', '\n'], .inr ⟨hf hfolds, rfl, rfl⟩, ?_⟩
        rw [hcr, hstop] at hslice
        rw [hlf, stop'] at hslice'
        rw [hcr] at hrepresents
        rw [hlf] at hrepresents'
        show (Span.mk x.span.start (offsetOf bytes.length cs)).slice bytes = _
        rw [← Span.slice_append (Nat.le_of_lt hlt) (Nat.le_of_lt lt'), hslice, hslice',
          ← Encoding.encode_singleton hrepresents, ← Encoding.encode_singleton hrepresents']
        exact (List.flatMap_append ..).symm
  | case4 x y cs hfold =>
    rw [Tabular.uncons, if_neg hfold] at hc
    obtain ⟨rfl, rfl⟩ := Prod.mk.inj (Option.some.inj hc)
    exact one h

/-! ### Cells -/

/-- A cell that does not begin before offset `start` and ends where its
terminator begins, which a read in the dialect `origin` has come upon. -/
structure CellRead.Lies (p : CellRead) (origin : Dialect) (e : Encoding) (bytes : List UInt8)
    (start : Nat) : Prop where
  start_le : start ≤ p.stop
  learns : origin.LearnsTo p.dialect
  rest : Spelled e bytes p.rest
  inputEnd : p.ending = .inputEnd → p.stop = bytes.length
  terminator : ∀ t, p.ending = .terminator t → p.stop ≤ offsetOf bytes.length p.rest ∧
    ∃ text, origin.IsTerminator t text ∧
      (Span.mk p.stop (offsetOf bytes.length p.rest)).slice bytes = e.encode text

namespace CellRead.Lies

variable {p : CellRead} {origin : Dialect} {start' : Nat}

theorem mono (h : p.Lies origin e bytes start) (hle : start' ≤ start) :
    p.Lies origin e bytes start' := { h with start_le := Nat.le_trans hle h.start_le }

theorem keep (h : p.Lies origin e bytes start) (c : Scanned) :
    (p.keep c).Lies origin e bytes start :=
  ⟨h.start_le, h.learns, h.rest, h.inputEnd, h.terminator⟩

/-- The input ends the cell. -/
theorem of_inputEnd {d : Dialect} (ho : origin.LearnsTo d) (hle : start ≤ bytes.length)
    (kept : List Scanned) :
    Lies ⟨kept, false, .inputEnd, bytes.length, d, []⟩ origin e bytes start :=
  ⟨hle, ho, .nil, fun _ => rfl, by simp⟩

end CellRead.Lies

namespace Dialect

variable {origin d d' : Dialect} {whitespace : List Char}

theorem lies_readNaked (hl : origin.Legible) (ho : origin.LearnsTo d)
    (hc : origin.Leads e bytes c cs) :
    (d.readNaked bytes.length c cs).Lies origin e bytes c.span.start := by
  fun_induction readNaked d bytes.length c cs with
  | case1 c cs t d' ht =>
    have haccepts := accepts_of_terminator ho ht
    obtain ⟨text, hreads, hslice⟩ := hc.text (hl.ne_replacement haccepts)
    refine ⟨Nat.le_refl _, ho.trans (.of_terminator ht), hc.rest, by simp, ?_⟩
    rintro t' ht'
    obtain rfl : t = t' := by simpa using ht'
    exact ⟨Nat.le_of_lt hc.lt, text, ⟨c.char, haccepts, hreads⟩, hslice⟩
  | case2 c cs ht hnone =>
    exact .of_inputEnd ho (Nat.le_of_lt (Nat.lt_of_lt_of_le hc.lt hc.rest.offsetOf_le)) [c]
  | case3 c cs ht c' cs' hsome ih =>
    obtain ⟨hc', hstart⟩ := hc.rest.uncons ho.folds_of hsome
    refine ((ih hc').keep c).mono ?_
    rw [hstart]
    exact Nat.le_of_lt hc.lt

theorem lies_readEnclosed (hl : origin.Legible) (ho : origin.LearnsTo d) (hcs : Spelled e bytes cs)
    (hstart : start ≤ offsetOf bytes.length cs) (q : Char) :
    (d.readEnclosed bytes.length q cs).Lies origin e bytes start := by
  fun_induction readEnclosed d bytes.length q cs with
  | case1 cs hnone => exact .of_inputEnd ho (Nat.le_trans hstart hcs.offsetOf_le) []
  | case2 cs c cs' hsome hne ih =>
    obtain ⟨hc, hc'⟩ := hcs.uncons ho.folds_of hsome
    have hlt := hc.lt
    exact (ih hc.rest (by omega)).keep c
  | case3 cs c cs' hsome hq hnone => exact .of_inputEnd ho (Nat.le_trans hstart hcs.offsetOf_le) []
  | case4 cs c cs' hsome hq c' cs'' hsome' hq' ih =>
    obtain ⟨hc, hstart'⟩ := hcs.uncons ho.folds_of hsome
    obtain ⟨hc', hstart''⟩ := hc.rest.uncons ho.folds_of hsome'
    have hlt := hc.lt
    have hlt' := hc'.lt
    exact (ih hc'.rest (by omega)).keep c
  | case5 cs c cs' hsome hq c' cs'' hsome' hq' =>
    obtain ⟨hc, hstart'⟩ := hcs.uncons ho.folds_of hsome
    obtain ⟨hc', hstart''⟩ := hc.rest.uncons ho.folds_of hsome'
    have hlt := hc.lt
    -- The quote was not doubled, so the cell goes on without quotes.
    exact (lies_readNaked hl ho hc').mono (by omega)

/-- The first character of a cell, which may come after whitespace. -/
theorem leads_seek (ho : origin.LearnsTo d) (hcs : Spelled e bytes cs)
    (h : d.seek whitespace cs = some (c, rest, d')) :
    origin.Leads e bytes c rest ∧ offsetOf bytes.length cs ≤ c.span.start ∧ origin.LearnsTo d' := by
  fun_induction seek d whitespace cs with
  | case1 cs hnone => exact absurd h (by simp)
  | case2 cs x cs' hsome hx t d'' ht =>
    obtain ⟨rfl, rfl, rfl⟩ : x = c ∧ cs' = rest ∧ d'' = d' := by simpa using h
    obtain ⟨hc, hstart⟩ := hcs.uncons ho.folds_of hsome
    exact ⟨hc, Nat.le_of_eq hstart.symm, ho.trans (.of_terminator ht)⟩
  | case3 cs x cs' hsome hx ht ih =>
    obtain ⟨hx, hstart⟩ := hcs.uncons ho.folds_of hsome
    obtain ⟨hc, hle, hlearns⟩ := ih hx.rest h
    have hlt := hx.lt
    exact ⟨hc, by omega, hlearns⟩
  | case4 cs x cs' hsome hx =>
    obtain ⟨rfl, rfl, rfl⟩ : x = c ∧ cs' = rest ∧ d = d' := by simpa using h
    obtain ⟨hc, hstart⟩ := hcs.uncons ho.folds_of hsome
    exact ⟨hc, Nat.le_of_eq hstart.symm, ho⟩

theorem leads_readFirst (ho : origin.LearnsTo d) (hcs : Spelled e bytes cs)
    (h : d.readFirst whitespace cs = some (c, rest, d')) :
    origin.Leads e bytes c rest ∧ offsetOf bytes.length cs ≤ c.span.start ∧ origin.LearnsTo d' := by
  rw [readFirst] at h
  split at h
  · exact leads_seek ho hcs h
  · obtain ⟨⟨x, cs'⟩, hsome, heq⟩ := Option.map_eq_some_iff.mp h
    obtain ⟨rfl, rfl, rfl⟩ : x = c ∧ cs' = rest ∧ d = d' := by simpa using heq
    obtain ⟨hc, hstart⟩ := hcs.uncons ho.folds_of hsome
    exact ⟨hc, Nat.le_of_eq hstart.symm, ho⟩

theorem lies_readFrom (hl : origin.Legible) (ho : origin.LearnsTo d)
    (hc : origin.Leads e bytes c cs) :
    (d.readFrom bytes.length c cs).Lies origin e bytes c.span.start := by
  rw [readFrom]
  split
  · rename_i d' hopens
    obtain ⟨hle, hlearns, hrest, hend, hterminator⟩ :=
      lies_readEnclosed hl (ho.trans (.of_opens hopens)) hc.rest (Nat.le_of_lt hc.lt) c.char
    exact ⟨hle, hlearns, hrest, hend, hterminator⟩
  · exact lies_readNaked hl ho hc

/-- The cell that characters begin with ends where its terminator begins. -/
theorem lies_readCell (hl : origin.Legible) (ho : origin.LearnsTo d) (hcs : Spelled e bytes cs)
    (whitespace : List Char) :
    (d.readCell bytes.length whitespace cs).Lies origin e bytes (offsetOf bytes.length cs) := by
  rw [readCell]
  cases h : d.readFirst whitespace cs with
  | none => exact .of_inputEnd ho hcs.offsetOf_le []
  | some p =>
    obtain ⟨c, rest, d'⟩ := p
    obtain ⟨hc, hle, hlearns⟩ := leads_readFirst ho hcs h
    exact (lies_readFrom hl hlearns hc).mono hle

end Dialect

end Tabular
