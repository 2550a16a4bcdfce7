/-
Folding beforehand.

* `logical_of_uncons` — the logical characters are those that are taken one by
  one;
* `Dialect.keeping` — a dialect that folds nothing;
* `CellRead.folded` — a cell with what comes after it folded;
* `Dialect.folded_readCell` — a cell is the same whether CR LF is folded while
  it is read or before.

Design notes: where the line end is still to be detected, folding may come to
an end with it, so it has to be known.
-/
import Tabular.Proofs.Read.Detect
import Tabular.Proofs.Read.Learn
import Tabular.Proofs.Text.Pairs

namespace Tabular

theorem map_char_logical (folds : Bool) (cs : List Scanned) :
    (logical folds cs).map Scanned.char =
      if folds then joinPairs '\r' '\n' (cs.map Scanned.char) else cs.map Scanned.char := by
  cases folds with
  | false => rfl
  | true =>
    show (joinCrLf cs).map Scanned.char = joinPairs '\r' '\n' (cs.map Scanned.char)
    fun_induction joinCrLf cs with
    | case1 c d cs hcd ih =>
      rw [List.map_cons, ih]
      exact (if_pos hcd).symm
    | case2 c d cs hcd ih =>
      rw [List.map_cons, ih]
      exact (if_neg hcd).symm
    | case3 cs hcs =>
      cases cs with
      | nil => rfl
      | cons c cs =>
        cases cs with
        | nil => rfl
        | cons d cs => exact absurd rfl (hcs c d cs)

/-- The first logical character, and then the others. -/
theorem logical_of_uncons {folds : Bool} {c : Scanned} {cs rest : List Scanned}
    (h : uncons folds cs = some (c, rest)) : logical folds cs = c :: logical folds rest := by
  fun_cases uncons folds cs with
  | case1 => simp [uncons] at h
  | case2 d =>
    obtain ⟨rfl, rfl⟩ := Prod.mk.inj (Option.some.inj h)
    exact logical_cons (by simp)
  | case3 a b cs hfold =>
    rw [uncons, if_pos hfold] at h
    obtain ⟨rfl, rfl⟩ := Prod.mk.inj (Option.some.inj h)
    obtain ⟨ha, rfl, hb⟩ := hfold
    exact logical_crlf ha hb
  | case4 a b cs hfold =>
    rw [uncons, if_neg hfold] at h
    obtain ⟨rfl, rfl⟩ := Prod.mk.inj (Option.some.inj h)
    refine logical_cons fun hf ha d hd hd' => hfold ⟨ha, hf, ?_⟩
    rwa [Option.some.inj hd]

theorem logical_eq_nil_iff {folds : Bool} {cs : List Scanned} :
    logical folds cs = [] ↔ cs = [] := by
  cases h : uncons folds cs with
  | none => simp [uncons_eq_none h]
  | some p =>
    have hne : cs ≠ [] := by
      rintro rfl
      simp [uncons] at h
    rw [logical_of_uncons h]
    exact iff_of_false (List.cons_ne_nil _ _) hne

@[simp] theorem uncons_false_nil : uncons false [] = none := rfl

/-- Nothing is folded that has been folded already. -/
@[simp] theorem uncons_false_cons (c : Scanned) (cs : List Scanned) :
    uncons false (c :: cs) = some (c, cs) := by
  cases cs with
  | nil => rfl
  | cons d cs => exact if_neg (by simp)

theorem uncons_logical {folds : Bool} {c : Scanned} {cs rest : List Scanned}
    (h : uncons folds cs = some (c, rest)) :
    uncons false (logical folds cs) = some (c, logical folds rest) := by
  rw [logical_of_uncons h, uncons_false_cons]

theorem uncons_logical_none {folds : Bool} {cs : List Scanned} (h : uncons folds cs = none) :
    uncons false (logical folds cs) = none := by
  rw [uncons_eq_none h, logical_nil, uncons_false_nil]

namespace Dialect

/-- The dialect, in which CR LF stays as it is. -/
def keeping (d : Dialect) : Dialect := { d with keepsCrLf := true }

@[simp] theorem folds_keeping (d : Dialect) : d.keeping.folds = false := rfl

theorem terminator?_keeping (d : Dialect) (c : Char) :
    d.keeping.terminator? c = (d.terminator? c).map fun (t, d) => (t, d.keeping) := by
  cases hs : d.separator.accepts Delimiter.separatorCandidates c <;>
    cases hl : d.lineEnd.accepts Delimiter.lineEndCandidates c <;>
    simp [terminator?, keeping, hs, hl]

theorem opens?_keeping (d : Dialect) (c : Char) :
    d.keeping.opens? c = (d.opens? c).map keeping := by
  cases hq : d.enclosing.accepts Delimiter.enclosingCandidates c <;> simp [opens?, keeping, hq]

end Dialect

/-- The cell, with what comes after it folded. -/
def CellRead.folded (folds : Bool) (p : CellRead) : CellRead :=
  { p with dialect := p.dialect.keeping, rest := logical folds p.rest }

namespace Dialect

variable {d : Dialect} (stop : Nat)

theorem LearnsTo.folds_known {e : Dialect} (h : d.LearnsTo e) (hd : d.lineEnd ≠ .auto) :
    d.folds = e.folds := h.folds_eq fun hauto => absurd hauto hd

theorem LearnsTo.lineEnd_known {e : Dialect} (h : d.LearnsTo e) (hd : d.lineEnd ≠ .auto) :
    e.lineEnd ≠ .auto := fun hauto => hd (h.lineEnd_auto hauto)

theorem folded_readNaked (c : Scanned) (cs : List Scanned) :
    (d.readNaked stop c cs).folded d.folds =
      d.keeping.readNaked stop c (logical d.folds cs) := by
  fun_induction readNaked d stop c cs with
  | case1 c cs t d' ht =>
    rw [readNaked, terminator?_keeping, ht]
    rfl
  | case2 c cs ht hnone =>
    rw [readNaked, terminator?_keeping, ht]
    dsimp only [Option.map_none]
    rw [folds_keeping, uncons_logical_none hnone]
    rw [CellRead.folded, logical_nil]
  | case3 c cs ht c' cs' hsome ih =>
    have hgoes : d.keeping.readNaked stop c (logical d.folds cs) =
        (d.keeping.readNaked stop c' (logical d.folds cs')).keep c := by
      rw [readNaked, terminator?_keeping, ht]
      dsimp only [Option.map_none]
      rw [folds_keeping, uncons_logical hsome]
    rw [hgoes, ← ih]
    rfl

theorem folded_readEnclosed (q : Char) (cs : List Scanned) :
    (d.readEnclosed stop q cs).folded d.folds =
      d.keeping.readEnclosed stop q (logical d.folds cs) := by
  fun_induction readEnclosed d stop q cs with
  | case1 cs hnone =>
    rw [readEnclosed, folds_keeping, uncons_logical_none hnone, CellRead.folded, logical_nil]
  | case2 cs c cs' hsome hc ih =>
    have hgoes : d.keeping.readEnclosed stop q (logical d.folds cs) =
        (d.keeping.readEnclosed stop q (logical d.folds cs')).keep c := by
      rw [readEnclosed, folds_keeping, uncons_logical hsome]
      exact if_pos hc
    rw [hgoes, ← ih]
    rfl
  | case3 cs c cs' hsome hc hnone =>
    rw [readEnclosed, folds_keeping, uncons_logical hsome]
    dsimp only
    rw [if_neg hc, uncons_logical_none hnone, CellRead.folded, logical_nil]
  | case4 cs c cs' hsome hc c' cs'' hsome' hc' ih =>
    have hgoes : d.keeping.readEnclosed stop q (logical d.folds cs) =
        (d.keeping.readEnclosed stop q (logical d.folds cs'')).keep c := by
      rw [readEnclosed, folds_keeping, uncons_logical hsome]
      dsimp only
      rw [if_neg hc, uncons_logical hsome']
      exact if_pos hc'
    rw [hgoes, ← ih]
    rfl
  | case5 cs c cs' hsome hc c' cs'' hsome' hc' =>
    have hgoes : d.keeping.readEnclosed stop q (logical d.folds cs) =
        d.keeping.readNaked stop c' (logical d.folds cs'') := by
      rw [readEnclosed, folds_keeping, uncons_logical hsome]
      dsimp only
      rw [if_neg hc, uncons_logical hsome']
      exact if_neg hc'
    rw [hgoes, folded_readNaked]

theorem folded_seek (whitespace : List Char) (cs : List Scanned) :
    d.keeping.seek whitespace (logical d.folds cs) =
      (d.seek whitespace cs).map fun (c, cs, e) => (c, logical d.folds cs, e.keeping) := by
  fun_induction seek d whitespace cs with
  | case1 cs hnone =>
    rw [seek, folds_keeping, uncons_logical_none hnone]
    rfl
  | case2 cs c cs' hsome hc t d' ht =>
    rw [seek, folds_keeping, uncons_logical hsome]
    dsimp only
    rw [if_pos hc, terminator?_keeping, ht]
    rfl
  | case3 cs c cs' hsome hc ht ih =>
    rw [seek, folds_keeping, uncons_logical hsome]
    dsimp only
    rw [if_pos hc, terminator?_keeping, ht]
    exact ih
  | case4 cs c cs' hsome hc =>
    rw [seek, folds_keeping, uncons_logical hsome]
    dsimp only
    rw [if_neg hc]
    rfl

theorem folded_readFirst (whitespace : List Char) (cs : List Scanned) :
    d.keeping.readFirst whitespace (logical d.folds cs) =
      (d.readFirst whitespace cs).map fun (c, cs, e) => (c, logical d.folds cs, e.keeping) := by
  rw [readFirst, readFirst, show d.keeping.trims = d.trims from rfl]
  split
  · exact folded_seek whitespace cs
  · rw [folds_keeping, Option.map_map]
    cases h : uncons d.folds cs with
    | none =>
      rw [uncons_logical_none h]
      rfl
    | some p =>
      rw [uncons_logical h]
      rfl

theorem folded_readFrom (hd : d.lineEnd ≠ .auto) (c : Scanned) (cs : List Scanned) :
    (d.readFrom stop c cs).folded d.folds =
      d.keeping.readFrom stop c (logical d.folds cs) := by
  rw [readFrom, readFrom, opens?_keeping]
  cases ho : d.opens? c.char with
  | none => exact folded_readNaked stop c cs
  | some e =>
    dsimp only [Option.map_some]
    rw [(LearnsTo.of_opens ho).folds_known hd, ← folded_readEnclosed]
    rfl

/-- A cell is the same whether CR LF is folded while it is read or before. -/
theorem folded_readCell (hd : d.lineEnd ≠ .auto) (whitespace : List Char) (cs : List Scanned) :
    (d.readCell stop whitespace cs).folded d.folds =
      d.keeping.readCell stop whitespace (logical d.folds cs) := by
  rw [readCell, readCell, folded_readFirst]
  cases h : d.readFirst whitespace cs with
  | none => rw [Option.map_none, CellRead.folded, logical_nil]
  | some p =>
    obtain ⟨c, rest, e⟩ := p
    have hlearns := learnsTo_of_readFirst h
    dsimp only [Option.map_some]
    rw [hlearns.folds_known hd, folded_readFrom stop (hlearns.lineEnd_known hd)]

end Dialect

end Tabular
