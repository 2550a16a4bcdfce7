/-
Two letters that stand for the second of them.

* `joinPairs` — a list in which each such pair has become one letter, as CR LF
  becomes a line feed;
* `joinPairs_cons`, `joinPairs_append` — what is no pair stays as it is;
* `prefix_joinPairs` — and so does what has neither letter, at the head;
* `joinPairs_map` — letters can be spelled differently before or after.

Design notes: the letters are characters in one place and bytes in another, so
nothing is said here of what they are.
-/
import Mathlib.Data.List.Infix

namespace Tabular

/-- Every `first` just before a `second` is joined to it. -/
def joinPairs {α : Type} [DecidableEq α] (first second : α) : List α → List α
  | a :: b :: xs =>
    if a = first ∧ b = second then second :: joinPairs first second xs
    else a :: joinPairs first second (b :: xs)
  | xs => xs

section

variable {α β : Type} [DecidableEq α] [DecidableEq β] {first second a : α} {xs : List α}

theorem joinPairs_pair :
    joinPairs first second (first :: second :: xs) = second :: joinPairs first second xs :=
  if_pos ⟨rfl, rfl⟩

/-- What is not the first of a pair stays. -/
theorem joinPairs_cons (h : a = first → xs.head? ≠ some second) :
    joinPairs first second (a :: xs) = a :: joinPairs first second xs := by
  cases xs with
  | nil => rfl
  | cons b xs =>
    rw [joinPairs, if_neg]
    rintro ⟨ha, rfl⟩
    exact h ha rfl

/-- A run in which there is no first of a pair stays. -/
theorem joinPairs_append {run : List α} (h : first ∉ run) (xs : List α) :
    joinPairs first second (run ++ xs) = run ++ joinPairs first second xs := by
  induction run with
  | nil => rfl
  | cons a run ih =>
    rw [List.mem_cons, not_or] at h
    rw [List.cons_append, joinPairs_cons fun ha => absurd ha.symm h.1, ih h.2, List.cons_append]

theorem joinPairs_eq_self (h : first ∉ xs) : joinPairs first second xs = xs := by
  have happend : joinPairs first second (xs ++ []) = xs ++ [] := joinPairs_append h []
  rwa [List.append_nil] at happend

/-- A run without the letters of a pair is at the head of both or of neither. -/
theorem prefix_joinPairs {run : List α} (h : ∀ a ∈ run, a ≠ first ∧ a ≠ second) :
    run <+: joinPairs first second xs ↔ run <+: xs := by
  induction run generalizing xs with
  | nil => simp
  | cons b run ih =>
    rw [List.forall_mem_cons] at h
    cases xs with
    | nil => rfl
    | cons a xs =>
      by_cases ha : a = first
      · -- Neither letter of a pair is that of the run.
        have hne : b ≠ a := ha ▸ h.1.1
        have hhead : ∃ c ys, joinPairs first second (a :: xs) = c :: ys ∧ b ≠ c := by
          cases xs with
          | nil => exact ⟨a, [], rfl, hne⟩
          | cons c xs =>
            rw [joinPairs]
            split
            · exact ⟨_, _, rfl, h.1.2⟩
            · exact ⟨_, _, rfl, hne⟩
        obtain ⟨c, ys, heq, hne'⟩ := hhead
        rw [heq, List.cons_prefix_cons, List.cons_prefix_cons]
        exact iff_of_false (fun hprefix => hne' hprefix.1) fun hprefix => hne hprefix.1
      · rw [joinPairs_cons fun h => absurd h ha, List.cons_prefix_cons, List.cons_prefix_cons,
          ih h.2]

/-- Both letters of a pair can be told after they are spelled differently. -/
theorem joinPairs_map {f : α → β} (hfirst : ∀ a ∈ xs, f a = f first ↔ a = first)
    (hsecond : ∀ a ∈ xs, f a = f second ↔ a = second) :
    joinPairs (f first) (f second) (xs.map f) = (joinPairs first second xs).map f := by
  fun_induction joinPairs first second xs with
  | case1 a b xs hab ih =>
    obtain ⟨rfl, rfl⟩ := hab
    rw [List.forall_mem_cons, List.forall_mem_cons] at hfirst hsecond
    rw [List.map_cons, List.map_cons, joinPairs_pair, ih hfirst.2.2 hsecond.2.2, List.map_cons]
  | case2 a b xs hab ih =>
    rw [List.forall_mem_cons] at hfirst hsecond
    have hcons : f a = f first → ((b :: xs).map f).head? ≠ some (f second) := by
      intro ha hb
      refine hab ⟨hfirst.1.mp ha, ?_⟩
      exact ((List.forall_mem_cons.mp hsecond.2).1).mp (Option.some.inj hb)
    rw [List.map_cons, joinPairs_cons hcons, ih hfirst.2 hsecond.2, List.map_cons]
  | case3 xs hxs =>
    cases xs with
    | nil => rfl
    | cons a xs =>
      cases xs with
      | nil => rfl
      | cons b xs => exact absurd rfl (hxs a b xs)

end

end Tabular
