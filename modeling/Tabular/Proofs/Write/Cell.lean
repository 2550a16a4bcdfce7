/-
What a written cell is read as.

* `Format.Rereads` — what was written in a format can be told apart in it;
* `unquote_doubled` — of a cell between quotes every character is kept, and no
  doubled quote;
* `Rereads.cellOf_enclosed`, `Rereads.cellOf_naked` — the cell that a text
  begins with, if that is how it was written;
* `Rereads.cellOf_cellText` — the two together.

Design notes: the characters of a text are known, but not the bytes that they
stand on, so all that is said of a list of characters is said of its image
under `Scanned.char`.
-/
import Mathlib.Data.List.TakeWhile
import Tabular.Writer
import Tabular.Proofs.Read.Cell

namespace Tabular

/-- What was written in a format can be told apart in it: by a separator and a
quote that differ from each other and from line ends, and a line end that is
the line ending as it is read. -/
structure Format.Rereads (f : Format) (s q : Char) : Prop where
  separator : f.separator = .char s
  enclosing : f.enclosing = .char q
  lineEnd : f.lineEnd = .char f.lineEnding.readChar
  ne : s ≠ q
  separator_ne : s ≠ '\r' ∧ s ≠ '\n'
  enclosing_ne : q ≠ '\r' ∧ q ≠ '\n'
  /-- Whitespace that is dropped cannot be a quote. -/
  trims : f.trims → q ≠ ' ' ∧ q ≠ '\t'
  /-- A line ending of two characters is folded into one. -/
  folds : f.lineEnding = .crlf → f.keepsCrLf = false

/-- Whether a cell is written between quotes, if there are any. -/
def Format.encloses (f : Format) (p : Enclosure) (cell : List Char) : Bool :=
  match p with
  | .never => false
  | .ifNeeded => f.needsEnclosing cell
  | .always => true

/-- Whether a character is whitespace that may be dropped before a cell. -/
def isBlank (c : Char) : Bool := CellBuffer.empty.whitespace.contains c

/-- What a written cell is read as. -/
def Format.reread (f : Format) (p : Enclosure) (cell : List Char) : List Char :=
  if f.trims ∧ f.encloses p cell = false then cell.dropWhile isBlank else cell

/-- What is not enclosed need not be. -/
theorem Format.needsEnclosing_of_not_encloses {f : Format} {p : Enclosure} {cell : List Char}
    (hp : p ≠ .never) (he : ¬ f.encloses p cell) : f.needsEnclosing cell = false := by
  cases p with
  | never => exact absurd rfl hp
  | ifNeeded => exact Bool.eq_false_iff.mpr he
  | always => exact absurd rfl he

/-! ### Quotes -/

/-- Doubled quotes are read as one, up to a quote that is not doubled. -/
theorem unquote_doubled {q : Char} {cell rest : List Char} {chars : List Scanned}
    (h : chars.map Scanned.char =
      (cell.flatMap fun c => if c = q then [q, q] else [c]) ++ q :: rest)
    (hrest : rest.head? ≠ some q) :
    ∃ after, (unquote q chars).2 = some after ∧ after.map Scanned.char = rest ∧
      (unquote q chars).1.map Scanned.char = cell := by
  induction cell generalizing chars with
  | nil =>
    obtain ⟨c, chars, rfl, hc, htail⟩ := List.map_eq_cons_iff.mp h
    cases chars with
    | nil => exact ⟨[], by rw [unquote, if_pos hc], htail, by rw [unquote, if_pos hc]; rfl⟩
    | cons d chars =>
      have hd : d.char ≠ q := by
        rintro rfl
        rw [← htail] at hrest
        exact hrest rfl
      rw [unquote, if_neg (not_not.mpr hc), if_neg hd]
      exact ⟨_, rfl, htail, rfl⟩
  | cons x cell ih =>
    rw [List.flatMap_cons, List.append_assoc] at h
    -- A quote of the cell was doubled, any other character was not.
    by_cases hx : x = q
    · rw [if_pos hx, List.cons_append, List.cons_append] at h
      obtain ⟨c, chars, rfl, hc, h⟩ := List.map_eq_cons_iff.mp h
      obtain ⟨d, chars, rfl, hd, h⟩ := List.map_eq_cons_iff.mp h
      obtain ⟨after, hafter, hrest', hkept⟩ := ih h
      rw [unquote, if_neg (not_not.mpr hc), if_pos hd]
      refine ⟨after, hafter, hrest', ?_⟩
      rw [List.map_cons, hkept, hc, hx]
    · rw [if_neg hx, List.singleton_append] at h
      obtain ⟨c, chars, rfl, hc, h⟩ := List.map_eq_cons_iff.mp h
      obtain ⟨after, hafter, hrest', hkept⟩ := ih h
      cases chars with
      | nil => simp at h
      | cons d chars =>
        rw [unquote, if_pos (hc ▸ hx)]
        refine ⟨after, hafter, hrest', ?_⟩
        rw [List.map_cons, hkept, hc]

/-! ### Cells -/

namespace Format.Rereads

variable {f : Format} {s q : Char} {p : Enclosure} {cell rest : List Char} {chars : List Scanned}

theorem settled (h : f.Rereads s q) : f.toDialect.Settled := by
  refine ⟨?_, ?_, ?_⟩
  · rw [h.separator]
    simp
  · rw [h.enclosing]
    simp
  · rw [h.lineEnd]
    simp

theorem lineEnd_ne (h : f.Rereads s q) :
    s ≠ f.lineEnding.readChar ∧ q ≠ f.lineEnding.readChar := by
  cases f.lineEnding with
  | lf | crlf => exact ⟨h.separator_ne.2, h.enclosing_ne.2⟩
  | cr => exact ⟨h.separator_ne.1, h.enclosing_ne.1⟩

theorem ends?_separator (h : f.Rereads s q) : f.ends? s = some .separator := by
  rw [Dialect.ends?, if_pos h.separator]

theorem ends?_lineEnd (h : f.Rereads s q) : f.ends? f.lineEnding.readChar = some .lineEnd := by
  have hne : f.separator ≠ .char f.lineEnding.readChar := by
    rw [h.separator]
    exact fun heq => h.lineEnd_ne.1 (Delimiter.char.inj heq)
  rw [Dialect.ends?, if_neg hne, if_pos h.lineEnd]

/-- The quote ends no cell. -/
theorem ends?_enclosing (h : f.Rereads s q) : f.ends? q = none := by
  have hs : f.separator ≠ .char q := by
    rw [h.separator]
    exact fun heq => h.ne (Delimiter.char.inj heq)
  have hl : f.lineEnd ≠ .char q := by
    rw [h.lineEnd]
    exact fun heq => h.lineEnd_ne.2 (Delimiter.char.inj heq).symm
  rw [Dialect.ends?, if_neg hs, if_neg hl]

/-- What need not be enclosed holds nothing that ends a cell, and no quote. -/
theorem of_mem_naked (h : f.Rereads s q) (hn : f.needsEnclosing cell = false) {c : Char}
    (hc : c ∈ cell) : f.ends? c = none ∧ c ≠ q := by
  rw [needsEnclosing, List.any_eq_false] at hn
  have hn := hn c hc
  simp only [Bool.or_eq_true, beq_iff_eq, not_or] at hn
  obtain ⟨⟨⟨-, hs⟩, hq⟩, hl⟩ := hn
  refine ⟨by rw [Dialect.ends?, if_neg hs, if_neg hl], ?_⟩
  rintro rfl
  exact hq h.enclosing

theorem cellText_eq (h : f.Rereads s q) (p : Enclosure) (cell : List Char) :
    f.cellText p cell = if f.encloses p cell then enclose q cell else cell := by
  have hq : f.enclosing.char? = some q := by rw [h.enclosing]; rfl
  unfold cellText
  rw [hq]
  cases p with
  | never | ifNeeded | always => rfl

/-- What comes after a written cell: the end of the text, or what ends the
cell. -/
def Ending (f : Format) (rest : List Char) : Prop := ∀ c ∈ rest.head?, (f.ends? c).isSome

theorem takeWhile_isContent {as bs : List Scanned} (has : ∀ c ∈ as, f.ends? c.char = none)
    (hbs : Ending f (bs.map Scanned.char)) :
    (as ++ bs).takeWhile f.isContent = as ∧ (as ++ bs).dropWhile f.isContent = bs := by
  have hall : ∀ c ∈ as, f.isContent c := by
    intro c hc
    rw [Dialect.isContent, has c hc]
    rfl
  rw [List.takeWhile_append_of_pos hall, List.dropWhile_append_of_pos hall]
  cases bs with
  | nil => exact ⟨List.append_nil as, rfl⟩
  | cons b bs =>
    have hb : f.isContent b = false := by
      rw [Dialect.isContent, Option.isNone_eq_false_iff]
      exact hbs b.char rfl
    rw [List.takeWhile_cons_of_neg (by simp [hb]), List.dropWhile_cons_of_neg (by simp [hb]),
      List.append_nil]
    exact ⟨rfl, rfl⟩

/-- A cell between quotes is read as itself. -/
theorem cellOf_enclosed (h : f.Rereads s q)
    (hchars : chars.map Scanned.char = enclose q cell ++ rest) (hrest : Ending f rest) :
    let parts := f.cellOf CellBuffer.empty.whitespace chars
    parts.kept.map Scanned.char = cell ∧ parts.after.map Scanned.char = rest := by
  rw [enclose, List.cons_append, List.cons_append, List.append_assoc] at hchars
  obtain ⟨c, chars, rfl, rfl, htail⟩ := List.map_eq_cons_iff.mp hchars
  have htrim : f.trim CellBuffer.empty.whitespace (c :: chars) = c :: chars := by
    rw [Dialect.trim]
    split
    · rename_i htrims
      obtain ⟨hspace, htab⟩ := h.trims htrims
      rw [List.dropWhile_cons_of_neg (by simp [CellBuffer.empty, hspace, htab])]
    · rfl
  -- The quote after the cell is not doubled, as it ends no cell.
  have hquote : rest.head? ≠ some c.char := by
    intro hhead
    have := hrest c.char hhead
    rw [h.ends?_enclosing] at this
    exact absurd this Bool.false_ne_true
  obtain ⟨after, hafter, hrest', hkept⟩ := unquote_doubled htail hquote
  obtain rfl : after.map Scanned.char = rest := hrest'
  obtain ⟨htake, hdrop⟩ := takeWhile_isContent (List.forall_mem_nil _) hrest
  rw [List.nil_append] at htake hdrop
  dsimp only
  rw [Dialect.cellOf, htrim]
  dsimp only
  rw [Dialect.partsFrom, if_pos h.enclosing, hafter, Option.getD_some, Dialect.nakedOf]
  dsimp only
  rw [htake, hdrop, List.append_nil]
  exact ⟨hkept, rfl⟩

/-- Whitespace is dropped from a cell, but nothing after it. -/
theorem trim_naked {as bs : List Scanned} (has : ∀ c ∈ as, f.ends? c.char = none)
    (hbs : Ending f (bs.map Scanned.char)) :
    f.trim CellBuffer.empty.whitespace (as ++ bs) =
      (if f.trims then as.dropWhile (isBlank ∘ Scanned.char) else as) ++ bs := by
  rw [Dialect.trim]
  by_cases htrims : f.trims
  · rw [if_pos htrims, if_pos htrims]
    induction as with
    | nil =>
      cases bs with
      | nil => rfl
      | cons b bs =>
        -- What ends the cell is not passed over, even if it is whitespace.
        have hb : f.isContent b = false := by
          rw [Dialect.isContent, Option.isNone_eq_false_iff]
          exact hbs b.char rfl
        rw [List.nil_append, List.dropWhile_cons_of_neg (by simp [hb])]
        rfl
    | cons a as ih =>
      have ha : f.isContent a := by
        rw [Dialect.isContent, has a (List.mem_cons_self ..)]
        rfl
      have ih := ih fun c hc => has c (List.mem_cons_of_mem _ hc)
      have hblank : CellBuffer.empty.whitespace.contains a.char = isBlank a.char := rfl
      rw [List.cons_append, List.dropWhile_cons, List.dropWhile_cons, ha, Bool.and_true, ih, hblank,
        Function.comp_apply]
      split
      · rfl
      · rfl
  · rw [if_neg htrims, if_neg htrims]

/-- A cell without quotes is read as itself, but for the whitespace before
it. -/
theorem cellOf_naked (h : f.Rereads s q) (hn : f.needsEnclosing cell = false)
    (hchars : chars.map Scanned.char = cell ++ rest) (hrest : Ending f rest) :
    let parts := f.cellOf CellBuffer.empty.whitespace chars
    parts.kept.map Scanned.char = (if f.trims then cell.dropWhile isBlank else cell) ∧
      parts.after.map Scanned.char = rest := by
  obtain ⟨as, bs, rfl, rfl, rfl⟩ := List.map_eq_append_iff.mp hchars
  have hnaked : ∀ c ∈ as, f.ends? c.char = none ∧ c.char ≠ q := fun c hc =>
    h.of_mem_naked hn (List.mem_map_of_mem hc)
  have htrim := trim_naked (fun c hc => (hnaked c hc).1) hrest
  -- What is left of the cell without the whitespace before it.
  obtain ⟨as', has'⟩ : ∃ as',
      (if f.trims then as.dropWhile (isBlank ∘ Scanned.char) else as) = as' := ⟨_, rfl⟩
  have hsub : ∀ c ∈ as', c ∈ as := by
    intro c hc
    rw [← has'] at hc
    split at hc
    · exact (List.dropWhile_sublist _).subset hc
    · exact hc
  have hmap : as'.map Scanned.char =
      if f.trims then (as.map Scanned.char).dropWhile isBlank else as.map Scanned.char := by
    rw [← has', List.dropWhile_map]
    split <;> rfl
  -- So no quote opens it.
  have hquote : ∀ c ∈ (as' ++ bs).head?, f.enclosing ≠ .char c.char := by
    intro c hc henclosing
    have hq : c.char = q := (Delimiter.char.inj (h.enclosing.symm.trans henclosing)).symm
    cases as' with
    | nil =>
      have := hrest c.char (by rw [List.head?_map, show bs.head? = some c from hc]; rfl)
      rw [hq, h.ends?_enclosing] at this
      exact absurd this Bool.false_ne_true
    | cons a as' =>
      obtain rfl : a = c := Option.some.inj hc
      exact (hnaked a (hsub a (List.mem_cons_self ..))).2 hq
  obtain ⟨htake, hdrop⟩ := takeWhile_isContent (fun c hc => (hnaked c (hsub c hc)).1) hrest
  have hcell : f.cellOf CellBuffer.empty.whitespace (as ++ bs) = ⟨as', false, bs⟩ := by
    rw [Dialect.cellOf, htrim, has']
    cases hall : as' ++ bs with
    | nil =>
      obtain ⟨rfl, rfl⟩ := List.append_eq_nil_iff.mp hall
      rfl
    | cons c cs =>
      dsimp only
      rw [Dialect.partsFrom, if_neg (hquote c (by rw [hall]; rfl)), Dialect.nakedOf, ← hall, htake,
        hdrop, List.nil_append]
  dsimp only
  rw [hcell]
  exact ⟨hmap, rfl⟩

/-- A written cell at the head of a text. -/
theorem cellOf_cellText (h : f.Rereads s q) (hp : p ≠ .never)
    (hchars : chars.map Scanned.char = f.cellText p cell ++ rest) (hrest : Ending f rest) :
    let parts := f.cellOf CellBuffer.empty.whitespace chars
    parts.kept.map Scanned.char = f.reread p cell ∧ parts.after.map Scanned.char = rest := by
  rw [h.cellText_eq] at hchars
  rw [reread]
  by_cases he : f.encloses p cell
  · rw [if_pos he] at hchars
    rw [if_neg (by simp [he])]
    exact h.cellOf_enclosed hchars hrest
  · rw [if_neg he] at hchars
    have hn := needsEnclosing_of_not_encloses hp he
    simp only [Bool.eq_false_iff.mpr he, and_true]
    exact h.cellOf_naked hn hchars hrest

end Format.Rereads

end Tabular
