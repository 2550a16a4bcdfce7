/-
Detection comes to the same as knowing from the start.

* `Format.resolved` — a format, with what a read of a text detects filled in;
* `Dialect.LearnsTo.folds_eq` — CR LF is folded as before, unless a carriage
  return is detected as the line end;
* `Likeness.detecting` — a reader that detects is like one that knows;
* `readBytes_resolved` — so the text reads the same in the resolved format.

Design notes: while a line end is to be detected CR LF is folded, so that it
is detected as a line feed.  A carriage return that is detected later on ends
the folding, but cells before it may hold a folded CR LF.
-/
import Tabular.Proofs.Read.Alike
import Tabular.Proofs.Read.Start
import Tabular.Read.Whole

namespace Tabular

/-- What plays the part, where it was to be detected what was found. -/
def Delimiter.resolve (d found : Delimiter) : Delimiter := if d = .auto then found else d

/-- The dialect, with what was found where it was to be detected. -/
def Dialect.resolve (d found : Dialect) : Dialect :=
  { d with
    separator := d.separator.resolve found.separator
    enclosing := d.enclosing.resolve found.enclosing
    lineEnd := d.lineEnd.resolve found.lineEnd }

/-- The format, with what a read of that text character by character detects;
what it does not detect is left open. -/
def Format.resolved (f : Format) (bytes : List UInt8) (o : ReadOptions) (judge : Judge) : Format :=
  match Reader.ofBytes bytes f o with
  | .error _ => f
  | .ok r => { f with toDialect := f.toDialect.resolve (r.read judge).state.dialect }

namespace Delimiter.LearnsTo

variable {candidates : List Char} {d e : Delimiter} {c : Char}

theorem resolve_eq (h : LearnsTo candidates d e) : d.resolve e = e := by
  rcases h with rfl | ⟨rfl, -⟩
  · rw [resolve]
    split <;> rfl
  · rw [resolve, if_pos rfl]

/-- What is known for certain stays. -/
theorem eq_of_char (h : LearnsTo candidates (.char c) e) : e = .char c := by
  rcases h with rfl | ⟨hauto, -⟩
  · rfl
  · exact absurd hauto (by simp)

/-- A character that was not accepted is not accepted later on. -/
theorem accepts_eq_false (h : LearnsTo candidates d e) (hc : d.accepts candidates c = false) :
    e.accepts candidates c = false := by
  rcases h with rfl | ⟨rfl, x, hx, rfl⟩
  · exact hc
  · have hc : c ∉ candidates := by simpa [accepts] using hc
    rw [accepts, beq_eq_false_iff_ne]
    rintro rfl
    exact hc hx

end Delimiter.LearnsTo

namespace Dialect.LearnsTo

variable {d e final : Dialect} {c : Char}

theorem resolve_eq (h : d.LearnsTo e) : d.resolve e = e := by
  obtain ⟨hs, hq, hl, ht, hk⟩ := h
  rw [resolve, hs.resolve_eq, hq.resolve_eq, hl.resolve_eq, ht, hk]

/-- CR LF is folded as before, unless a carriage return is detected. -/
theorem folds_eq (h : d.LearnsTo e)
    (hr : d.lineEnd = .auto → e.lineEnd ≠ .char '\r' ∨ e.keepsCrLf) : d.folds = e.folds := by
  rw [folds, folds, h.keepsCrLf]
  rcases h.lineEnd with hl | ⟨hl, c, hc, hce⟩
  · rw [hl]
  · rcases hr hl with hne | hkeeps
    · have hc : c = '\n' := by
        simp only [Delimiter.lineEndCandidates, List.mem_cons, List.not_mem_nil, or_false] at hc
        refine hc.resolve_right ?_
        rintro rfl
        exact hne hce
      rw [hl, hce, hc]
      rfl
    · rw [hkeeps]
      rfl

theorem terminator?_eq_none (h : d.LearnsTo e) (hc : d.terminator? c = none) :
    e.terminator? c = none := by
  rw [terminator?] at hc ⊢
  split at hc
  · exact absurd hc (by simp)
  · rename_i hs
    split at hc
    · exact absurd hc (by simp)
    · rename_i hl
      have hs := h.separator.accepts_eq_false (Bool.not_eq_true _ |>.mp hs)
      have hl := h.lineEnd.accepts_eq_false (Bool.not_eq_true _ |>.mp hl)
      rw [hs, hl]
      rfl

theorem opens?_eq_none (h : d.LearnsTo e) (hc : d.opens? c = none) : e.opens? c = none := by
  rw [opens?] at hc ⊢
  split at hc
  · exact absurd hc (by simp)
  · rename_i hq
    rw [h.enclosing.accepts_eq_false (Bool.not_eq_true _ |>.mp hq)]
    rfl

theorem accepts_char (candidates : List Char) (c : Char) :
    (Delimiter.char c).accepts candidates c := by simp [Delimiter.accepts]

/-- A character that ends a cell does so as well where it was known that it
would. -/
theorem terminator?_eq_some {t : Terminator} (h : d.LearnsTo final)
    (hc : d.terminator? c = some (t, e)) (he : e.LearnsTo final) :
    final.terminator? c = some (t, final) := by
  rw [terminator?] at hc
  split at hc
  · obtain ⟨rfl, rfl⟩ := Prod.mk.inj (Option.some.inj hc)
    have hs := he.separator.eq_of_char
    rw [terminator?, hs, if_pos (accepts_char ..), ← hs]
  · rename_i hs
    split at hc
    · obtain ⟨rfl, rfl⟩ := Prod.mk.inj (Option.some.inj hc)
      have hl := he.lineEnd.eq_of_char
      have hs := h.separator.accepts_eq_false (Bool.not_eq_true _ |>.mp hs)
      rw [terminator?, hs, if_neg Bool.false_ne_true, hl, if_pos (accepts_char ..), ← hl]
    · exact absurd hc (by simp)

theorem opens?_eq_some (hc : d.opens? c = some e) (he : e.LearnsTo final) :
    final.opens? c = some final := by
  rw [opens?] at hc
  split at hc
  · obtain rfl := Option.some.inj hc
    have hq := he.enclosing.eq_of_char
    rw [opens?, hq, if_pos (accepts_char ..), ← hq]
  · exact absurd hc (by simp)

/-- No line end is left open that was not open before. -/
theorem lineEnd_auto (h : d.LearnsTo e) (he : e.lineEnd = .auto) : d.lineEnd = .auto := by
  rcases h.lineEnd with hl | ⟨hl, -⟩
  · exact hl.trans he
  · exact hl

end Dialect.LearnsTo

/-- A reader that detects is like one that knows from the start what is
detected in the end. -/
def Likeness.detecting (final : Dialect) : Likeness where
  chars := (· = ·)
  dialects d d' := d' = final ∧ d.LearnsTo final ∧
    (d.lineEnd = .auto → final.lineEnd ≠ .char '\r' ∨ final.keepsCrLf)
  allows e := e.LearnsTo final
  shares := True
  next h s folds := h ▸ .refl _
  position h := h ▸ rfl
  encoding h := h ▸ rfl
  allows_of_learns h he := h.trans he
  folds := by
    rintro d _ ⟨rfl, h, hr⟩
    exact h.folds_eq hr
  trims := by
    rintro d _ ⟨rfl, h, -⟩
    exact h.trims
  goesOn := by
    rintro d _ c ⟨rfl, h, -⟩ hc
    exact h.terminator?_eq_none hc
  terminates := by
    rintro d _ e c t ⟨rfl, h, hr⟩ hc he
    exact ⟨_, h.terminator?_eq_some hc he, rfl, he,
      fun hl => hr ((Dialect.LearnsTo.of_terminator hc).lineEnd_auto hl)⟩
  isNaked := by
    rintro d _ c ⟨rfl, h, -⟩ hc
    exact h.opens?_eq_none hc
  opens := by
    rintro d _ e c ⟨rfl, h, hr⟩ hc he
    exact ⟨_, Dialect.LearnsTo.opens?_eq_some hc he, rfl, he,
      fun hl => hr ((Dialect.LearnsTo.of_opens hc).lineEnd_auto hl)⟩

namespace Reader

variable {bytes : List UInt8} {f : Format} {o : ReadOptions} {judge : Judge} {r : Reader}

theorem state_read (r : Reader) (judge : Judge) :
    (r.read judge).state = (r.readRows judge 0).state := by
  rw [read]
  cases r.readRows judge 0 <;> rfl

/-- A text in memory can be read in another dialect as well, unless it
encloses cells and the other does not. -/
theorem ofBytes_dialect {d : Dialect} (h : ofBytes bytes f o = .ok r)
    (hd : d.enclosing = .off ↔ f.enclosing = .off) :
    r.dialect = f.toDialect ∧
      ofBytes bytes { f with toDialect := d } o = .ok { r with dialect := d } := by
  have hcheck : ∀ (s : Strategy) (e : Encoding),
      s.check { f with toDialect := d } e true = s.check f e true := by
    intro s e
    simp only [Strategy.check, ne_eq, hd]
  obtain ⟨e, start, hr⟩ : ∃ e start, f.encoding.resolve (bytes.take 4) = (e, start) := ⟨_, _, rfl⟩
  rw [ofBytes_eq o hr] at h
  rw [ofBytes_eq (f := { f with toDialect := d }) o hr, hcheck]
  cases hc : (o.strategy.getD .decode).check f e true with
  | error err =>
    rw [hc] at h
    exact absurd h (by simp [Except.map])
  | ok _ =>
    rw [hc] at h
    obtain rfl := Except.ok.inj h
    exact ⟨rfl, rfl⟩

/-- A reader that knows from the start what another detects comes to the
same. -/
theorem outcome_detected (hr : r.dialect.lineEnd = .auto →
      (r.read judge).state.dialect.lineEnd ≠ .char '\r' ∨ (r.read judge).state.dialect.keepsCrLf) :
    ({ r with dialect := (r.read judge).state.dialect }).outcome judge = r.outcome judge := by
  rw [state_read] at hr ⊢
  have hal : r.Alike (.detecting (r.readRows judge 0).state.dialect)
      { r with dialect := (r.readRows judge 0).state.dialect } :=
    ⟨rfl, ⟨rfl, learns_readRows rfl, hr⟩, rfl, rfl, fun _ => rfl, fun h => absurd trivial h, rfl,
      rfl, rfl, rfl⟩
  exact (hal.outcome_eq (.refl _) fun hd => hd.1.symm).symm

end Reader

/-- A text reads the same in a format that says what would be detected, unless
CR LF was folded while the line end was open and it is then detected as a
carriage return.  In that case cells may differ. -/
theorem readBytes_resolved :
    (∀ (bytes : List UInt8) (f : Format) (o : ReadOptions) (judge : Judge),
      let f' := f.resolved bytes o judge
      ¬ (f.lineEnd = .auto ∧ f.keepsCrLf = false ∧ f'.lineEnd = .char '\r') →
      readBytes bytes f' { o with characterwise := true } judge =
        readBytes bytes f { o with characterwise := true } judge) ∧
    ∃ (bytes : List UInt8) (f : Format) (o : ReadOptions) (judge : Judge),
      let f' := f.resolved bytes o judge
      (f.lineEnd = .auto ∧ f.keepsCrLf = false ∧ f'.lineEnd = .char '\r') ∧
      (readBytes bytes f' { o with characterwise := true } judge).handed ≠
        (readBytes bytes f { o with characterwise := true } judge).handed := by
  constructor
  · intro bytes f o judge f' hf
    have hbytes : ∀ g : Format, readBytes bytes g { o with characterwise := true } judge =
        .ofReader judge (Reader.ofBytes bytes g o) := fun _ => rfl
    rw [hbytes, hbytes]
    cases hr : Reader.ofBytes bytes f o with
    | error e =>
      have hf' : f' = f := by rw [show f' = f.resolved bytes o judge from rfl, Format.resolved, hr]
      rw [hf', hr]
    | ok r =>
      let final := (r.read judge).state.dialect
      have hlearns : r.dialect.LearnsTo final := by
        rw [show final = (r.readRows judge 0).state.dialect from
          congrArg Reader.dialect (r.state_read judge)]
        exact Reader.learns_readRows rfl
      have hdialect : r.dialect = f.toDialect := (Reader.ofBytes_dialect hr Iff.rfl).1
      have hf' : f' = { f with toDialect := final } := by
        rw [show f' = f.resolved bytes o judge from rfl, Format.resolved, hr]
        dsimp only
        rw [← hdialect, hlearns.resolve_eq]
      rw [hdialect] at hlearns
      rw [hf', (Reader.ofBytes_dialect hr hlearns.enclosing.off_iff).2]
      refine Reader.outcome_detected fun hauto => ?_
      rw [hdialect] at hauto
      rw [← hlearns.keepsCrLf]
      by_contra hcr
      simp only [not_or, not_not, Bool.not_eq_true] at hcr
      exact hf ⟨hauto, hcr.2, by rw [hf']; exact hcr.1⟩
  · -- CR LF between quotes, before a carriage return that ends the line.
    refine ⟨[0x22, 0x0D, 0x0A, 0x22, 0x0D], { Format.csv with lineEnd := .auto }, {}, .always, ?_, ?_⟩
    · decide +kernel
    · decide +kernel

/-- A text in which separator, quote and line end are detected. -/
theorem readBytes_resolved_all :
    let bytes : List UInt8 := [0x22, 0x61, 0x2C, 0x22, 0x3B, 0x62, 0x0D, 0x0A, 0x63]
    let f : Format := { Format.csv with separator := .auto, enclosing := .auto, lineEnd := .auto }
    let f' := f.resolved bytes {} .always
    f' = { f with separator := .char ';', enclosing := .char '"', lineEnd := .char '\n' } ∧
      ¬ (f.lineEnd = .auto ∧ f.keepsCrLf = false ∧ f'.lineEnd = .char '\r') ∧
      readBytes bytes f' { characterwise := true } .always =
        readBytes bytes f { characterwise := true } .always := by
  intro bytes f f'
  have hf' : f' = { f with
      separator := .char ';', enclosing := .char '"', lineEnd := .char '\n' } := by
    decide +kernel
  have hf : ¬ (f.lineEnd = .auto ∧ f.keepsCrLf = false ∧ f'.lineEnd = .char '\r') := by
    rw [hf']
    decide
  exact ⟨hf', hf, readBytes_resolved.1 bytes f {} .always hf⟩

end Tabular
