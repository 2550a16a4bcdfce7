/-
What written rows are read as.

* `Format.rowText`, `Format.document` — rows as they are written;
* `Rereads.logical_document` — line endings are folded, and nothing else is;
* `Rereads.handedFrom_row`, `Rereads.handedFrom_document` — the cells that are
  read are those of the rows, as far as the rows can be told;
* `Rows.foldl_put_entries` — collected, these are the rows again.

Design notes: an empty line is a row with an empty cell, but only if there is
a line ending after it.  Since none is written after the last row, that row is
lost if its line is empty (`Format.rowsRead`).
-/
import Mathlib.Data.List.Chain
import Tabular.Read.Rows
import Tabular.Proofs.Read.Grammar
import Tabular.Proofs.Write.Cell

namespace Tabular

namespace Format

/-- A row as it is written. -/
def rowText (f : Format) (p : Enclosure) (s : Char) (cells : List (List Char)) : List Char :=
  [s].intercalate (cells.map (f.cellText p))

/-- Rows as they are written, with an ending between them. -/
def document (f : Format) (p : Enclosure) (s : Char) (ending : List Char)
    (rows : List (List (List Char))) : List Char :=
  ending.intercalate (rows.map (f.rowText p s))

/-- The rows that are read: all of them, but the last if nothing is written of
it. -/
def rowsRead (f : Format) (p : Enclosure) (s : Char) :
    List (List (List Char)) → List (List (List Char))
  | [] => []
  | [cells] => if f.rowText p s cells = [] then [] else [cells]
  | cells :: cells' :: rows => cells :: rowsRead f p s (cells' :: rows)

variable {f : Format} {p : Enclosure} {s : Char}

theorem rowText_cons_cons (cell cell' : List Char) (cells : List (List Char)) :
    f.rowText p s (cell :: cell' :: cells) =
      f.cellText p cell ++ s :: f.rowText p s (cell' :: cells) := by
  rw [rowText, List.map_cons, List.map_cons, List.intercalate_cons_cons, List.append_assoc]
  rfl

theorem document_cons_cons (ending : List Char) (cells cells' : List (List Char))
    (rows : List (List (List Char))) :
    f.document p s ending (cells :: cells' :: rows) =
      f.rowText p s cells ++ (ending ++ f.document p s ending (cells' :: rows)) := by
  rw [document, List.map_cons, List.map_cons, List.intercalate_cons_cons, List.append_assoc]
  rfl

theorem mem_of_mem_rowsRead {rows : List (List (List Char))} {cells : List (List Char)}
    (h : cells ∈ f.rowsRead p s rows) : cells ∈ rows := by
  fun_induction rowsRead f p s rows with
  | case1 => exact h
  | case2 => simp at h
  | case3 => exact h
  | case4 cells' cells'' rows ih =>
    rcases List.mem_cons.mp h with rfl | h
    · exact List.mem_cons_self ..
    · exact List.mem_cons_of_mem _ (ih h)

theorem rowsRead_eq_self {rows : List (List (List Char))}
    (h : ∀ cells ∈ rows.getLast?, f.rowText p s cells ≠ []) : f.rowsRead p s rows = rows := by
  fun_induction rowsRead f p s rows with
  | case1 => rfl
  | case2 cells hnil => exact absurd hnil (h cells rfl)
  | case3 => rfl
  | case4 cells cells' rows ih =>
    rw [ih fun last hlast => h last (by rwa [List.getLast?_cons_cons])]

theorem length_rowsRead_lt {rows : List (List (List Char))} {cells : List (List Char)}
    (hlast : rows.getLast? = some cells) (h : f.rowText p s cells = []) :
    (f.rowsRead p s rows).length < rows.length := by
  fun_induction rowsRead f p s rows with
  | case1 => simp at hlast
  | case2 => exact Nat.zero_lt_one
  | case3 cells' hne =>
    obtain rfl : cells' = cells := Option.some.inj hlast
    exact absurd h hne
  | case4 cells' cells'' rows ih =>
    rw [List.getLast?_cons_cons] at hlast
    exact Nat.succ_lt_succ (ih hlast)

end Format

/-! ### Folding -/

/-- A text without CR LF that does not end in the middle of one. -/
structure Unfolded (text : List Char) : Prop where
  chain : text.IsChain fun a b => ¬ (a = '\r' ∧ b = '\n')
  last : text.getLast? ≠ some '\r'

theorem isChain_of_not_infix {text : List Char} (h : ¬ ['\r', '\n'] <:+: text) :
    text.IsChain fun a b => ¬ (a = '\r' ∧ b = '\n') := by
  induction text with
  | nil => exact .nil
  | cons a text ih =>
    refine List.isChain_cons.mpr ⟨?_, ih fun hin => h (hin.trans (List.suffix_cons a text).isInfix)⟩
    rintro b hb ⟨rfl, rfl⟩
    obtain ⟨text, rfl⟩ : ∃ rest, text = '\n' :: rest := by
      cases text with
      | nil => simp at hb
      | cons c text => exact ⟨text, by rw [Option.some.inj hb]⟩
    exact h ⟨[], text, rfl⟩

theorem Unfolded.append_cons {as bs : List Char} {c : Char} (ha : Unfolded as) (hb : Unfolded bs)
    (hcr : c ≠ '\r') : Unfolded (as ++ c :: bs) := by
  refine ⟨List.isChain_append.mpr ⟨ha.chain, List.isChain_cons.mpr ⟨?_, hb.chain⟩, ?_⟩, ?_⟩
  · exact fun _ _ h => hcr h.1
  · rintro a halast _ - ⟨rfl, -⟩
    exact ha.last halast
  · rw [List.getLast?_append, List.getLast?_cons]
    cases hlast : bs.getLast? with
    | none => simpa using hcr
    | some b =>
      have := hb.last
      rw [hlast] at this
      simpa using this

/-- Where there is no CR LF nothing is folded. -/
theorem logical_eq_self_of_isChain {folds : Bool} {cs : List Scanned}
    (h : folds → (cs.map Scanned.char).IsChain fun a b => ¬ (a = '\r' ∧ b = '\n')) :
    logical folds cs = cs := by
  induction cs with
  | nil => simp
  | cons c cs ih =>
    rw [logical_cons, ih fun hf => (List.isChain_cons.mp (h hf)).2]
    intro hf hc d hd hd'
    refine (List.isChain_cons.mp (h hf)).1 '\n' ?_ ⟨hc, rfl⟩
    rw [List.head?_map, Option.mem_def.mp hd, ← hd']
    rfl

namespace Format.Rereads

variable {f : Format} {s q : Char} {p : Enclosure}

theorem unfolded_enclose (h : f.Rereads s q) {cell : List Char}
    (hcell : cell.IsChain fun a b => ¬ (a = '\r' ∧ b = '\n')) : Unfolded (enclose q cell) := by
  have hhead : ∀ cell : List Char,
      (cell.flatMap fun c => if c = q then [q, q] else [c]).head? = cell.head? := by
    intro cell
    cases cell with
    | nil => rfl
    | cons c cell =>
      rw [List.flatMap_cons]
      split
      · rename_i hc
        rw [hc]
        rfl
      · rfl
  have hbody : (cell.flatMap fun c => if c = q then [q, q] else [c]).IsChain
      fun a b => ¬ (a = '\r' ∧ b = '\n') := by
    induction cell with
    | nil => exact .nil
    | cons c cell ih =>
      obtain ⟨hc, hcell⟩ := List.isChain_cons.mp hcell
      rw [List.flatMap_cons]
      split
      · refine List.isChain_cons.mpr ⟨?_, List.isChain_cons.mpr ⟨?_, ih hcell⟩⟩
        · exact fun _ _ h' => h.enclosing_ne.1 h'.1
        · exact fun _ _ h' => h.enclosing_ne.1 h'.1
      · refine List.isChain_cons.mpr ⟨?_, ih hcell⟩
        show ∀ c' ∈ (cell.flatMap _).head?, _
        rw [hhead]
        exact hc
  refine ⟨List.isChain_cons.mpr ⟨?_, List.isChain_append.mpr ⟨hbody, .singleton q, ?_⟩⟩, ?_⟩
  · exact fun _ _ h' => h.enclosing_ne.1 h'.1
  · intro a _ b hb hab
    obtain rfl : q = b := by simpa using hb
    exact h.enclosing_ne.2 hab.2
  · rw [enclose, List.getLast?_append]
    simpa using h.enclosing_ne.1

/-- Written cells are kept apart from line endings. -/
theorem unfolded_cellText (h : f.Rereads s q) (hp : p ≠ .never) {cell : List Char}
    (hcell : ¬ ['\r', '\n'] <:+: cell) : Unfolded (f.cellText p cell) := by
  have hcell := isChain_of_not_infix hcell
  rw [h.cellText_eq]
  split
  · exact h.unfolded_enclose hcell
  · rename_i he
    have hn := needsEnclosing_of_not_encloses hp he
    refine ⟨hcell, fun hlast => ?_⟩
    -- A carriage return at its end would have to be enclosed.
    rw [needsEnclosing, List.any_eq_false] at hn
    exact hn '\r' (List.mem_of_getLast? hlast) (by simp)

theorem unfolded_rowText (h : f.Rereads s q) (hp : p ≠ .never) {cells : List (List Char)}
    (hcells : ∀ cell ∈ cells, ¬ ['\r', '\n'] <:+: cell) : Unfolded (f.rowText p s cells) := by
  induction cells with
  | nil => exact ⟨.nil, by simp [rowText]⟩
  | cons cell cells ih =>
    have hcell := h.unfolded_cellText hp (hcells cell (List.mem_cons_self ..))
    cases cells with
    | nil =>
      rw [rowText, List.map_singleton, List.intercalate_singleton]
      exact hcell
    | cons cell' cells =>
      rw [rowText_cons_cons]
      exact hcell.append_cons (ih fun c hc => hcells c (List.mem_cons_of_mem _ hc))
        h.separator_ne.1

/-- A line ending is read as one character. -/
theorem logical_lineEnding (h : f.Rereads s q) {es bs : List Scanned}
    (hes : es.map Scanned.char = f.lineEnding.text.toList) :
    (logical f.folds (es ++ bs)).map Scanned.char =
      f.lineEnding.readChar :: (logical f.folds bs).map Scanned.char := by
  have hl := h.lineEnd
  cases hending : f.lineEnding with
  | lf =>
    rw [hending] at hes
    obtain ⟨e, es, rfl, he, hnil⟩ := List.map_eq_cons_iff.mp hes
    obtain rfl := List.map_eq_nil_iff.mp hnil
    rw [List.singleton_append, logical_cons, List.map_cons, he]
    · rfl
    · rw [he]
      exact fun _ hcr => absurd hcr (by decide)
  | crlf =>
    have hfolds : f.folds = true := by
      rw [Dialect.folds, h.folds hending, hl, hending]
      rfl
    rw [hending] at hes
    obtain ⟨e, es, rfl, he, hes⟩ := List.map_eq_cons_iff.mp hes
    obtain ⟨e', es, rfl, he', hnil⟩ := List.map_eq_cons_iff.mp hes
    obtain rfl := List.map_eq_nil_iff.mp hnil
    rw [hfolds]
    show (logical true (e :: e' :: bs)).map Scanned.char = _
    rw [logical_crlf he he']
    rfl
  | cr =>
    have hfolds : f.folds = false := by
      rw [Dialect.folds, hl, hending]
      exact Bool.and_false _
    rw [hending] at hes
    obtain ⟨e, es, rfl, he, hnil⟩ := List.map_eq_cons_iff.mp hes
    obtain rfl := List.map_eq_nil_iff.mp hnil
    rw [hfolds, logical_false, logical_false, List.singleton_append, List.map_cons, he]
    rfl

/-- Line endings are folded into the character that they are read as, and
nothing else is folded. -/
theorem logical_document (h : f.Rereads s q) (hp : p ≠ .never) {rows : List (List (List Char))}
    (hrows : f.folds → ∀ cells ∈ rows, ∀ cell ∈ cells, ¬ ['\r', '\n'] <:+: cell)
    {chars : List Scanned}
    (hchars : chars.map Scanned.char = f.document p s f.lineEnding.text.toList rows) :
    (logical f.folds chars).map Scanned.char =
      f.document p s [f.lineEnding.readChar] rows := by
  have hrow : ∀ cells ∈ rows, f.folds → Unfolded (f.rowText p s cells) :=
    fun cells hcells hf => h.unfolded_rowText hp (hrows hf cells hcells)
  clear hrows
  induction rows generalizing chars with
  | nil =>
    obtain rfl := List.map_eq_nil_iff.mp hchars
    simp [document]
  | cons cells rows ih =>
    cases rows with
    | nil =>
      have hall := hrow cells (List.mem_cons_self ..)
      rw [document, List.map_singleton, List.intercalate_singleton] at hchars ⊢
      rw [logical_eq_self_of_isChain fun hf => hchars ▸ (hall hf).chain, hchars]
    | cons cells' rows =>
      have hall := hrow cells (List.mem_cons_self ..)
      rw [document_cons_cons] at hchars ⊢
      obtain ⟨as, rest, rfl, has, hrest⟩ := List.map_eq_append_iff.mp hchars
      obtain ⟨es, bs, rfl, hes, hbs⟩ := List.map_eq_append_iff.mp hrest
      have ih := ih hbs fun cells hcells => hrow cells (List.mem_cons_of_mem _ hcells)
      -- A row does not end in a carriage return, so the folding can be cut after it.
      have hcut : logical f.folds (as ++ (es ++ bs)) =
          logical f.folds as ++ logical f.folds (es ++ bs) := by
        refine logical_append fun hf a ha hcr => ?_
        have hlast := (hall hf).last
        rw [← has, List.getLast?_map, Option.mem_def.mp ha, Option.map_some, hcr] at hlast
        exact absurd rfl hlast
      rw [hcut, List.map_append, logical_eq_self_of_isChain fun hf => has ▸ (hall hf).chain, has,
        h.logical_lineEnding hes, ih]
      rfl

end Format.Rereads

/-! ### Reading rows -/

namespace Format

/-- The cells of a row, from `column` on, as they are read. -/
def rowEntries (f : Format) (p : Enclosure) (row column : Nat) (cells : List (List Char)) :
    List (Nat × Nat × String) :=
  (cells.zipIdx column).map fun cell => (row, cell.2, String.ofList (f.reread p cell.1))

/-- The cells of rows, the first of which has that number, as they are read. -/
def entries (f : Format) (p : Enclosure) (row : Nat) (rows : List (List (List Char))) :
    List (Nat × Nat × String) :=
  (rows.zipIdx row).flatMap fun cells => f.rowEntries p cells.2 0 cells.1

namespace Rereads

variable {f : Format} {s q : Char} {p : Enclosure} {k : Handing} {chars : List Scanned}

/-- A row is read up to its line end, or to the end of the text. -/
theorem handedFrom_row (h : f.Rereads s q) (hp : p ≠ .never) (hk : k.strategy = .decode)
    {cells : List (List Char)} (hne : cells ≠ []) {rest : List Char}
    (hrest : ∀ c ∈ rest.head?, c = f.lineEnding.readChar) {row column : Nat}
    (hchars : chars.map Scanned.char = f.rowText p s cells ++ rest)
    (hstart : ¬ (chars = [] ∧ column = 0)) :
    ∃ chars', chars'.map Scanned.char = rest.tail ∧
      (f.handedFrom k row column chars).map Handed.entry =
        f.rowEntries p row column cells ++
          (f.handedFrom k (row + 1) 0 chars').map Handed.entry := by
  induction cells generalizing chars column with
  | nil => exact absurd rfl hne
  | cons cell cells ih =>
    cases cells with
    | nil =>
      rw [rowText, List.map_singleton, List.intercalate_singleton] at hchars
      -- The last cell of the row goes as far as the line end.
      have hending : Ending f rest := by
        intro c hc
        rw [hrest c hc, h.ends?_lineEnd]
        rfl
      obtain ⟨hkept, hafter⟩ := h.cellOf_cellText hp hchars hending
      have hentry : Handed.entry ⟨row, column, k.cell chars
          (f.cellOf CellBuffer.empty.whitespace chars)⟩ =
            (row, column, String.ofList (f.reread p cell)) := by
        rw [Handed.entry, Handing.text_cell hk, hkept]
      cases rest with
      | nil =>
        have hend : f.endOf (f.cellOf CellBuffer.empty.whitespace chars).after = .inputEnd := by
          rw [List.map_eq_nil_iff.mp hafter]
          rfl
        refine ⟨[], rfl, ?_⟩
        rw [Dialect.handedFrom_inputEnd hstart hend, Dialect.handedFrom_nil, List.map_singleton,
          hentry]
        rfl
      | cons c rest =>
        obtain ⟨a, as, hcons, ha, has⟩ := List.map_eq_cons_iff.mp hafter
        have hend : f.endOf (f.cellOf CellBuffer.empty.whitespace chars).after =
            .terminator .lineEnd := by
          rw [hcons, Dialect.endOf, ha, hrest c rfl, h.ends?_lineEnd]
          rfl
        refine ⟨as, has, ?_⟩
        rw [Dialect.handedFrom_lineEnd hend, List.map_cons, hentry, hcons]
        rfl
    | cons cell' cells =>
      rw [rowText_cons_cons, List.append_assoc, List.cons_append] at hchars
      -- Another one goes as far as the separator.
      have hending : Ending f (s :: (f.rowText p s (cell' :: cells) ++ rest)) := by
        intro c hc
        rw [← Option.some.inj hc, h.ends?_separator]
        rfl
      obtain ⟨hkept, hafter⟩ := h.cellOf_cellText hp hchars hending
      obtain ⟨a, as, hcons, ha, has⟩ := List.map_eq_cons_iff.mp hafter
      have hend : f.endOf (f.cellOf CellBuffer.empty.whitespace chars).after =
          .terminator .separator := by
        rw [hcons, Dialect.endOf, ha, h.ends?_separator]
        rfl
      obtain ⟨chars', hchars', ih⟩ := ih (List.cons_ne_nil _ _) has
        (fun hnil => absurd hnil.2 (Nat.succ_ne_zero column))
      refine ⟨chars', hchars', ?_⟩
      rw [Dialect.handedFrom_separator hend, List.map_cons, hcons, List.tail_cons, ih,
        Handed.entry, Handing.text_cell hk, hkept]
      rfl

/-- The rows of a document are read, but the last if nothing is written of
it. -/
theorem handedFrom_document (h : f.Rereads s q) (hp : p ≠ .never) (hk : k.strategy = .decode)
    {rows : List (List (List Char))} (hrows : ∀ cells ∈ rows, cells ≠ []) (row : Nat)
    (hchars : chars.map Scanned.char = f.document p s [f.lineEnding.readChar] rows) :
    (f.handedFrom k row 0 chars).map Handed.entry = f.entries p row (f.rowsRead p s rows) := by
  induction rows generalizing row chars with
  | nil =>
    obtain rfl := List.map_eq_nil_iff.mp hchars
    rw [Dialect.handedFrom_nil]
    rfl
  | cons cells rows ih =>
    have hcells := hrows cells (List.mem_cons_self ..)
    cases rows with
    | nil =>
      rw [document, List.map_singleton, List.intercalate_singleton] at hchars
      rw [rowsRead]
      split
      · rename_i hnil
        rw [hnil] at hchars
        obtain rfl := List.map_eq_nil_iff.mp hchars
        rw [Dialect.handedFrom_nil]
        rfl
      · rename_i hne
        have hstart : ¬ (chars = [] ∧ 0 = 0) := by
          rintro ⟨rfl, -⟩
          exact hne hchars.symm
        have hall : chars.map Scanned.char = f.rowText p s cells ++ [] := by
          rw [hchars, List.append_nil]
        obtain ⟨chars', hchars', hrow⟩ := h.handedFrom_row hp hk hcells (by simp) hall hstart
        obtain rfl := List.map_eq_nil_iff.mp hchars'
        rw [hrow, Dialect.handedFrom_nil]
        exact (List.append_nil _).trans (List.append_nil _).symm
    | cons cells' rows =>
      rw [document_cons_cons, List.singleton_append] at hchars
      have hstart : ¬ (chars = [] ∧ 0 = 0) := by
        rintro ⟨rfl, -⟩
        simp at hchars
      have hrest : ∀ c ∈ (f.lineEnding.readChar :: f.document p s [f.lineEnding.readChar]
          (cells' :: rows)).head?, c = f.lineEnding.readChar := by
        intro c hc
        exact (Option.some.inj hc).symm
      obtain ⟨chars', hchars', hrow⟩ := h.handedFrom_row hp hk hcells hrest hchars hstart
      rw [hrow, ih (fun cells hmem => hrows cells (List.mem_cons_of_mem _ hmem)) (row + 1) hchars']
      rfl

end Rereads

end Format

/-! ### Collecting rows -/

namespace Rows

/-- Adds a text to its row. -/
def put (rows : Rows) (entry : Nat × Nat × String) : Rows :=
  (padded rows (entry.1 + 1) #[]).modify entry.1 fun cells =>
    (padded cells entry.2.1 "").push entry.2.2

theorem addAll_eq_foldl (rows : Rows) (handed : List Handed) :
    rows.addAll handed = (handed.map Handed.entry).foldl put rows := by
  rw [List.foldl_map]
  rfl

theorem padded_of_le {α : Type} {xs : Array α} {size : Nat} (h : size ≤ xs.size) (x : α) :
    padded xs size x = xs := by
  rw [padded, Nat.sub_eq_zero_of_le h]
  exact Array.append_empty

theorem modify_push {α : Type} (xs : Array α) (x : α) (g : α → α) :
    (xs.push x).modify xs.size g = xs.push (g x) := by
  refine Array.ext_getElem? fun i => ?_
  rw [Array.getElem?_modify, Array.getElem?_push, Array.getElem?_push]
  by_cases hi : i = xs.size
  · subst hi
    rw [if_pos rfl, if_pos rfl, if_pos rfl]
    rfl
  · rw [if_neg (Ne.symm hi), if_neg hi, if_neg hi]

/-- The next text of the last row. -/
theorem put_push (rows : Rows) (cells : Array String) (text : String) :
    put (rows.push cells) (rows.size, cells.size, text) = rows.push (cells.push text) := by
  have hsize : rows.size + 1 ≤ (rows.push cells).size := by
    rw [Array.size_push]
  rw [put, padded_of_le hsize, modify_push]
  dsimp only
  rw [padded_of_le (Nat.le_refl _)]

/-- The first text of a new row. -/
theorem put_new (rows : Rows) (text : String) :
    put rows (rows.size, 0, text) = rows.push #[text] := by
  have hpadded : padded rows (rows.size + 1) #[] = rows.push #[] := by
    rw [padded, Nat.add_sub_cancel_left]
    rfl
  rw [put, hpadded, modify_push]
  rfl

variable {f : Format} {p : Enclosure}

/-- The texts of a row. -/
def ofCells (f : Format) (p : Enclosure) (cells : List (List Char)) : Array String :=
  (cells.map fun cell => String.ofList (f.reread p cell)).toArray

theorem ofCells_cons (cell : List Char) (cells : List (List Char)) :
    ofCells f p (cell :: cells) = #[String.ofList (f.reread p cell)] ++ ofCells f p cells :=
  List.toArray_cons ..

theorem foldl_put_push (rows : Rows) (texts : Array String) (cells : List (List Char)) :
    (f.rowEntries p rows.size texts.size cells).foldl put (rows.push texts) =
      rows.push (texts ++ ofCells f p cells) := by
  induction cells generalizing texts with
  | nil =>
    show rows.push texts = rows.push (texts ++ #[])
    rw [Array.append_empty]
  | cons cell cells ih =>
    have ih := ih (texts.push (String.ofList (f.reread p cell)))
    rw [Array.size_push] at ih
    show (f.rowEntries p rows.size (texts.size + 1) cells).foldl put (put (rows.push texts) _) = _
    rw [put_push, ih, ofCells_cons, Array.append_singleton_assoc]

theorem foldl_put_row (rows : Rows) {cells : List (List Char)} (hne : cells ≠ []) :
    (f.rowEntries p rows.size 0 cells).foldl put rows = rows.push (ofCells f p cells) := by
  cases cells with
  | nil => exact absurd rfl hne
  | cons cell cells =>
    show (f.rowEntries p rows.size 1 cells).foldl put (put rows _) = _
    rw [put_new, ofCells_cons]
    exact foldl_put_push rows #[String.ofList (f.reread p cell)] cells

/-- Collected, the cells of rows are the rows. -/
theorem foldl_put_entries (found : Rows) {rows : List (List (List Char))}
    (hrows : ∀ cells ∈ rows, cells ≠ []) :
    (f.entries p found.size rows).foldl put found = found ++ (rows.map (ofCells f p)).toArray := by
  induction rows generalizing found with
  | nil => exact Array.append_empty.symm
  | cons cells rows ih =>
    have ih := ih (found.push (ofCells f p cells)) fun c hc => hrows c (List.mem_cons_of_mem _ hc)
    rw [Array.size_push] at ih
    show (f.rowEntries p found.size 0 cells ++
      f.entries p (found.size + 1) rows).foldl put found = _
    rw [List.foldl_append, foldl_put_row found (hrows cells (List.mem_cons_self ..)), ih,
      List.map_cons, List.toArray_cons, Array.append_singleton_assoc]

end Rows

end Tabular
