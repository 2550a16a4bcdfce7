/-
Tables that are changed step by step.

* `Edit` — a change of a table; the cells of a table that has itself come of
  edits can be added to another;
* `Table.edit`, `Sheet.edit` — what comes of an edit, of a table and of a
  sheet, with the number of texts refused;
* `Sheet.Numbers` — all rows that an edit speaks of or moves cells to can be
  numbered;
* `Table.Shows.edit` — an edit of a table is that edit of its sheet;
* `Table.edits_answer` — and so tables of any history answer as their sheets.
-/
import Tabular.Proofs.Table.Sheet

namespace Tabular

/-- A change of a table. -/
inductive Edit
  | add (value : String) (row column : Nat)
  | insertRows (row count : Nat)
  | removeRows (row count : Nat)
  | insertColumns (column count : Nat)
  | eraseColumns (column count : Nat)
  /-- The cells of a table that has come of those edits are added, so many rows
  further down. -/
  | append (config : TableConfig) (edits : List Edit) (offset : Nat)
  | clear
  | shrink

mutual

/-- What comes of a table, and the number of texts that were refused. -/
def Table.edit (t : Table) : Edit → Table × Nat
  | .add value row column =>
    match t.add? value row column with
    | some t => (t, 0)
    | none => (t, 1)
  | .insertRows row count => (t.insertRows row count, 0)
  | .removeRows row count => (t.removeRows row count, 0)
  | .insertColumns column count => (t.insertColumns column count, 0)
  | .eraseColumns column count => (t.eraseColumns column count, 0)
  | .append config edits offset => t.append ((Table.empty config).edits edits).1 offset
  | .clear => (t.clear, 0)
  | .shrink => (t.shrink, 0)

/-- One edit after another, with the numbers refused. -/
def Table.edits (t : Table) : List Edit → Table × List Nat
  | [] => (t, [])
  | edit :: edits =>
    let (t, refused) := t.edit edit
    let (t, later) := t.edits edits
    (t, refused :: later)

end

mutual

/-- What comes of a sheet, and the number of texts that were refused. -/
noncomputable def Sheet.edit (config : TableConfig) (s : Sheet) : Edit → Sheet × Nat
  | .add value row column =>
    if config.refuses value then (s, 1) else (s.put value row column, 0)
  | .insertRows row count => (s.insertRows row count, 0)
  | .removeRows row count => (s.removeRows row count, 0)
  | .insertColumns column count => (s.insertColumns column count, 0)
  | .eraseColumns column count => (s.eraseColumns column count, 0)
  | .append config' edits offset =>
    let other := (Sheet.blank.edits config' edits).1
    (s.append config other offset, (other.having config.refuses).ncard)
  | .clear => (.blank, 0)
  | .shrink => (s, 0)

/-- One edit after another, with the numbers refused. -/
noncomputable def Sheet.edits (config : TableConfig) (s : Sheet) : List Edit → Sheet × List Nat
  | [] => (s, [])
  | edit :: edits =>
    let (s, refused) := s.edit config edit
    let (s, later) := s.edits config edits
    (s, refused :: later)

end

mutual

/-- The rows that an edit of a sheet speaks of, and those that it moves cells
to, can be numbered. -/
def Sheet.Numbers (config : TableConfig) (s : Sheet) : Edit → Prop
  | .add _ row _ => row ≤ lastRow
  | .insertRows row count => s.HasRoom row count
  | .removeRows row count => row + count ≤ lastRow
  | .append config' edits offset =>
    Sheet.blank.NumbersAll config' edits ∧
      ((Sheet.blank.edits config' edits).1.kept config).HasRoom 0 offset
  | _ => True

def Sheet.NumbersAll (config : TableConfig) (s : Sheet) : List Edit → Prop
  | [] => True
  | edit :: edits => s.Numbers config edit ∧ (s.edit config edit).1.NumbersAll config edits

end

namespace Table

@[simp] theorem config_append (t t' : Table) (offset : Nat) :
    (t.append t' offset).1.config = t.config := by
  show (t.addAll _).1.config = t.config
  rw [addAll_eq, config_putAll]

theorem config_edit (t : Table) (edit : Edit) : (t.edit edit).1.config = t.config := by
  cases edit with
  | add value row column =>
    rw [Table.edit, add?]
    split
    · rename_i heq
      split at heq
      · rw [← Option.some.inj heq, config_add]
      · exact absurd heq (by simp)
    · rfl
  | insertColumns column count =>
    rw [Table.edit, insertColumns]
    split <;> rfl
  | append config edits offset =>
    rw [Table.edit]
    exact config_append ..
  | _ => rfl

mutual

/-- An edit of a table is that edit of its sheet. -/
theorem Shows.edit {t : Table} {s : Sheet} (h : t.Shows s) {edit : Edit}
    (hr : s.Numbers t.config edit) :
    (t.edit edit).1.Shows (s.edit t.config edit).1 ∧ (t.edit edit).2 = (s.edit t.config edit).2 := by
  cases edit with
  | add value row column =>
    rw [Table.edit, Sheet.edit, add?, TableConfig.admits_eq]
    cases t.config.refuses value with
    | false => exact ⟨h.add value hr column, rfl⟩
    | true => exact ⟨h, rfl⟩
  | insertRows row count => exact ⟨h.insertRows hr, rfl⟩
  | removeRows row count => exact ⟨h.removeRows hr, rfl⟩
  | insertColumns column count => exact ⟨h.insertColumns column count, rfl⟩
  | eraseColumns column count => exact ⟨h.eraseColumns column count, rfl⟩
  | append config edits offset =>
    have h' : ((empty config).edits edits).1.Shows (Sheet.blank.edits config edits).1 :=
      ((shows_empty config).edits hr.1).1
    have hrefused := h'.encard_having t.config.refuses
    refine ⟨h.append h' hr.2, (append_snd ..).trans ?_⟩
    rw [Sheet.edit, Set.ncard, hrefused]
    rfl
  | clear => exact ⟨shows_empty t.config, rfl⟩
  | shrink => exact ⟨h, rfl⟩

theorem Shows.edits {t : Table} {s : Sheet} (h : t.Shows s) {edits : List Edit}
    (hr : s.NumbersAll t.config edits) :
    (t.edits edits).1.Shows (s.edits t.config edits).1 ∧
      (t.edits edits).2 = (s.edits t.config edits).2 := by
  cases edits with
  | nil => exact ⟨h, rfl⟩
  | cons edit edits =>
    obtain ⟨hedit, hrefused⟩ := h.edit hr.1
    have hlater : (s.edit t.config edit).1.NumbersAll (t.edit edit).1.config edits := by
      rw [config_edit]
      exact hr.2
    obtain ⟨hedits, hlater⟩ := hedit.edits hlater
    rw [config_edit] at hedits hlater
    exact ⟨hedits, congrArg₂ List.cons hrefused hlater⟩

end

/-- Whatever has been done to a table, it answers as a sheet to which the same
was done, and refuses as many texts. -/
theorem edits_answer (config : TableConfig) {edits : List Edit}
    (h : Sheet.blank.NumbersAll config edits) :
    ((empty config).edits edits).1.Answers (Sheet.blank.edits config edits).1 ∧
      ((empty config).edits edits).2 = (Sheet.blank.edits config edits).2 := by
  obtain ⟨hshows, hrefused⟩ := (shows_empty config).edits h
  exact ⟨hshows.answers, hrefused⟩

/-- A text that is too long for its block, rows dropped, columns put in, and
the cells of another table, one of which is refused. -/
theorem edits_answer_refusing :
    let config : TableConfig := ⟨4, false⟩
    let edits : List Edit :=
      [.add "ab" 3 1, .add "abcd" 0 5, .removeRows 0 2, .insertRows 1 4, .insertColumns 1 2,
        .append {} [.add "long" 0 0, .add "c" 1 4] 2, .eraseColumns 0 1]
    Sheet.blank.NumbersAll config edits ∧
      ((empty config).edits edits).1.Answers (Sheet.blank.edits config edits).1 ∧
      ((empty config).edits edits).2 = (Sheet.blank.edits config edits).2 := by
  intro config edits
  have hr : Sheet.blank.NumbersAll config edits := by
    have hrow : ∀ row, row ≤ 3 → row ≤ lastRow := fun row h => h.trans (by decide)
    refine ⟨hrow 3 (by decide), hrow 0 (by decide), hrow (0 + 2) (by decide), fun r c v hv _ => ?_,
      trivial, ⟨⟨hrow 0 (by decide), hrow 1 (by decide), trivial⟩, fun r c v hv _ => ?_⟩, trivial,
      trivial⟩
    · have hshort : config.refuses "ab" = false := by decide
      have hlong : config.refuses "abcd" = true := by decide
      simp only [Sheet.edit, hshort, hlong, Sheet.removeRows, Sheet.put, Sheet.blank] at hv
      grind [lastRow]
    · have hlong : ({} : TableConfig).refuses "long" = false := by decide
      have hc : ({} : TableConfig).refuses "c" = false := by decide
      simp only [Sheet.edits, Sheet.edit, hlong, hc, Sheet.kept, Sheet.put, Sheet.blank] at hv
      grind [lastRow]
  exact ⟨hr, edits_answer config hr⟩

end Table

end Tabular
