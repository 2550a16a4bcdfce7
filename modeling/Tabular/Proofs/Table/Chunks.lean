/-
The chunks in which a text is loaded.

* `Pieces` — a text cut after some of its line ends;
* `pieces_chunksAt` — the chunks between split points are such pieces;
* `eraseReps_eq_self` — no two split points are the same;
* `two_lt_length_splitPoints` — there is more than one chunk just if there is
  a cut;
* `pieces_splitPoints` — so that is how a text is shared out.
-/
import Mathlib.Data.List.TakeWhile
import Mathlib.Tactic.Common
import Tabular.Table.Load

namespace Tabular

/-- The pieces of a text that is cut after line ends.  No piece is empty. -/
inductive Pieces (lineEnd : UInt8) : List (List UInt8) → List UInt8 → Prop
  | last {piece : List UInt8} (h : piece ≠ []) : Pieces lineEnd [piece] piece
  | cons (xs : List UInt8) {pieces : List (List UInt8)} {rest : List UInt8}
      (h : Pieces lineEnd pieces rest) :
      Pieces lineEnd ((xs ++ [lineEnd]) :: pieces) (xs ++ lineEnd :: rest)

theorem Pieces.ne_nil {lineEnd : UInt8} {pieces : List (List UInt8)} {text : List UInt8}
    (h : Pieces lineEnd pieces text) : pieces ≠ [] ∧ ∀ piece ∈ pieces, piece ≠ [] := by
  induction h with
  | last hne => exact ⟨List.cons_ne_nil _ _, by simpa using hne⟩
  | cons xs _ ih =>
    refine ⟨List.cons_ne_nil _ _, fun piece hp => ?_⟩
    rcases List.mem_cons.mp hp with rfl | hp
    · exact List.append_ne_nil_of_right_ne_nil _ (List.cons_ne_nil _ _)
    · exact ih.2 piece hp

/-- The pieces of a text make it up. -/
theorem Pieces.flatten_eq {lineEnd : UInt8} {pieces : List (List UInt8)} {text : List UInt8}
    (h : Pieces lineEnd pieces text) : pieces.flatten = text := by
  induction h with
  | last => rw [List.flatten_singleton]
  | cons xs _ ih => rw [List.flatten_cons, ih, List.append_assoc, List.singleton_append]

theorem chunksAt_cons_cons (bytes : List UInt8) (a b : Nat) (points : List Nat) :
    chunksAt bytes (a :: b :: points) =
      Span.slice ⟨a, b⟩ bytes :: chunksAt bytes (b :: points) := rfl

theorem cutsFrom_nil (size : Nat) (lineEnd : UInt8) (position : Nat) :
    cutsFrom size lineEnd position [] = [] := by
  rw [cutsFrom]
  split
  · rfl
  · rfl
  · rename_i h
    simp at h

theorem ne_nil_of_cutsFrom {size : Nat} {lineEnd : UInt8} {position : Nat} {bytes : List UInt8}
    (h : cutsFrom size lineEnd position bytes ≠ []) : bytes ≠ [] := by
  rintro rfl
  exact h (cutsFrom_nil size lineEnd position)

/-- What is left of bytes that are searched for a line end begins with one. -/
theorem eq_of_dropWhile {lineEnd x : UInt8} {bytes after : List UInt8}
    (h : bytes.dropWhile (· != lineEnd) = x :: after) : x = lineEnd := by
  have hnot := List.head?_dropWhile_not (· != lineEnd) bytes
  rw [h] at hnot
  simpa using hnot

/-- The bytes before and after a cut. -/
theorem exists_cut {size cut : Nat} {lineEnd x b : UInt8} {position : Nat}
    {bytes rest after : List UInt8} (hrest : bytes.drop position = rest)
    (hle : position ≤ bytes.length)
    (h : (rest.drop size).dropWhile (· != lineEnd) = x :: b :: after)
    (hcut : cut = position + size + ((rest.drop size).takeWhile (· != lineEnd)).length + 1) :
    position < cut ∧ cut < bytes.length ∧ bytes.drop cut = b :: after ∧
      ∃ xs, rest = xs ++ lineEnd :: b :: after ∧
        Span.slice ⟨position, cut⟩ bytes = xs ++ [lineEnd] := by
  obtain rfl := eq_of_dropWhile h
  have hsize : size ≤ rest.length := by
    by_contra hlt
    rw [List.drop_of_length_le (Nat.le_of_not_le hlt)] at h
    simp at h
  -- All that comes before the line end.
  obtain ⟨xs, hxs⟩ : ∃ xs, xs = rest.take size ++ (rest.drop size).takeWhile (· != x) := ⟨_, rfl⟩
  have hsplit : rest = xs ++ x :: b :: after := by
    rw [hxs, List.append_assoc, ← h, List.takeWhile_append_dropWhile, List.take_append_drop]
  have hlen : xs.length = size + ((rest.drop size).takeWhile (· != x)).length := by
    rw [hxs, List.length_append, List.length_take, Nat.min_eq_left hsize]
  have htotal : position + rest.length = bytes.length := by
    rw [← hrest, List.length_drop]
    omega
  have hrestlen : rest.length = xs.length + (after.length + 2) := by
    rw [hsplit, List.length_append]
    rfl
  have hcut : cut = position + (xs.length + 1) := by omega
  have hconcat : rest = (xs ++ [x]) ++ b :: after := by
    rw [hsplit, List.append_assoc, List.singleton_append]
  have hconcatlen : (xs ++ [x]).length = xs.length + 1 := List.length_append
  refine ⟨by omega, by omega, ?_, xs, hsplit, ?_⟩
  · rw [hcut, ← List.drop_drop, hrest, hconcat, ← hconcatlen, List.drop_left]
  · rw [Span.slice, hrest, hcut, Nat.add_sub_cancel_left, hconcat, ← hconcatlen, List.take_left]

/-- The chunks between split points are pieces of the text, and the points
ascend. -/
theorem pieces_chunksAt {size : Nat} {lineEnd : UInt8} {position : Nat} {bytes rest : List UInt8}
    (hrest : bytes.drop position = rest) (hne : rest ≠ []) :
    let points := position :: cutsFrom size lineEnd position rest ++ [bytes.length]
    Pieces lineEnd (chunksAt bytes points) rest ∧ points.Pairwise (· < ·) := by
  have hlt : position < bytes.length := by
    by_contra hge
    rw [List.drop_of_length_le (Nat.le_of_not_lt hge)] at hrest
    exact hne hrest.symm
  -- Where nothing is cut there is one piece.
  have whole : ∀ {position : Nat} {rest : List UInt8}, bytes.drop position = rest → rest ≠ [] →
      position < bytes.length → Pieces lineEnd (chunksAt bytes [position, bytes.length]) rest ∧
        [position, bytes.length].Pairwise (· < ·) := by
    intro position rest hrest hne hlt
    constructor
    · show Pieces lineEnd [Span.slice ⟨position, bytes.length⟩ bytes] rest
      rw [Span.slice, hrest, List.take_of_length_le (by rw [← hrest, List.length_drop])]
      exact .last hne
    · simpa using hlt
  fun_induction cutsFrom size lineEnd position rest with
  | case1 => exact whole hrest hne hlt
  | case2 => exact whole hrest hne hlt
  | case3 position rest tail x b after h cut ih =>
    obtain ⟨hposition, hcutlt, hdrop, xs, hxs, hslice⟩ := exists_cut hrest (Nat.le_of_lt hlt) h rfl
    obtain ⟨hpieces, hpoints⟩ := ih hdrop (List.cons_ne_nil _ _) hcutlt
    constructor
    · rw [List.cons_append, List.cons_append, chunksAt_cons_cons, hslice, hxs]
      exact .cons xs hpieces
    · refine List.pairwise_cons.mpr ⟨?_, hpoints⟩
      intro point hpoint
      rcases List.mem_cons.mp hpoint with rfl | hpoint
      · exact hposition
      · exact Nat.lt_trans hposition ((List.pairwise_cons.mp hpoints).1 point hpoint)

/-! ### No two points are the same -/

theorem eraseRepsBy_loop_eq {α : Type} {r : α → α → Bool} {a : α} {as : List α}
    (h : (a :: as).Pairwise fun x y => r x y = false) (acc : List α) :
    List.eraseRepsBy.loop r a as acc = acc.reverse ++ a :: as := by
  induction as generalizing a acc with
  | nil => simp [List.eraseRepsBy.loop]
  | cons b as ih =>
    obtain ⟨hab, has⟩ := List.pairwise_cons.mp h
    rw [List.eraseRepsBy.loop, hab b (List.mem_cons_self ..)]
    dsimp only
    rw [ih has, List.reverse_cons, List.append_assoc]
    rfl

theorem eraseReps_eq_self {points : List Nat} (h : points.Pairwise (· < ·)) :
    points.eraseReps = points := by
  cases points with
  | nil => rfl
  | cons a as =>
    refine eraseRepsBy_loop_eq (h.imp fun hlt => ?_) []
    exact beq_eq_false_iff_ne.mpr (Nat.ne_of_lt hlt)

/-- There is more than one chunk just if there is a cut. -/
theorem two_lt_length_splitPoints {bytes : List UInt8} {start : Nat} {lineEnd : UInt8}
    {workers minimum : Nat} (hle : start ≤ bytes.length) :
    2 < (splitPoints bytes start lineEnd workers minimum).length ↔
      cutsFrom (max (max ((bytes.length - start) / workers) minimum) 1) lineEnd start
        (bytes.drop start) ≠ [] := by
  rw [splitPoints, Nat.min_eq_left hle]
  generalize max (max ((bytes.length - start) / workers) minimum) 1 = size
  constructor
  · intro h hcuts
    have htwo : ∀ a b : Nat, [a, b].eraseReps.length ≤ 2 := by
      intro a b
      rw [List.eraseReps, List.eraseRepsBy, List.eraseRepsBy.loop]
      split <;> simp [List.eraseRepsBy.loop]
    rw [hcuts] at h
    exact absurd h (Nat.not_lt_of_le (htwo _ _))
  · intro hcuts
    rw [eraseReps_eq_self (pieces_chunksAt rfl (ne_nil_of_cutsFrom hcuts)).2, List.length_append,
      List.length_cons, List.length_singleton]
    have := List.length_pos_iff.mpr hcuts
    omega

/-- If there is more than one chunk, the chunks are pieces of the text, and
more than one. -/
theorem pieces_splitPoints {bytes : List UInt8} {start : Nat} {lineEnd : UInt8}
    {workers minimum : Nat} (hle : start ≤ bytes.length)
    (h : 2 < (splitPoints bytes start lineEnd workers minimum).length) :
    ∃ piece pieces rest, chunksAt bytes (splitPoints bytes start lineEnd workers minimum) =
        (piece ++ [lineEnd]) :: pieces ∧ bytes.drop start = piece ++ lineEnd :: rest ∧
      Pieces lineEnd pieces rest := by
  have hcuts := (two_lt_length_splitPoints hle).mp h
  rw [splitPoints, Nat.min_eq_left hle]
  generalize max (max ((bytes.length - start) / workers) minimum) 1 = size at hcuts ⊢
  obtain ⟨cut, cuts, hcut⟩ := List.exists_cons_of_ne_nil hcuts
  obtain ⟨hpieces, hpoints⟩ :=
    @pieces_chunksAt size lineEnd start bytes _ rfl (ne_nil_of_cutsFrom hcuts)
  -- The points ascend, so none of them is dropped.
  rw [eraseReps_eq_self hpoints]
  rw [hcut, List.cons_append, List.cons_append, chunksAt_cons_cons] at hpieces ⊢
  generalize hrest : bytes.drop start = rest at hpieces
  generalize hfirst : Span.slice _ bytes = first at hpieces ⊢
  have hmore : chunksAt bytes (cut :: (cuts ++ [bytes.length])) ≠ [] := by
    cases cuts <;> simp [chunksAt]
  generalize chunksAt bytes (cut :: (cuts ++ [bytes.length])) = more at hpieces hmore ⊢
  cases hpieces with
  | last => exact absurd rfl hmore
  | cons xs h => exact ⟨xs, _, _, rfl, rfl, h⟩

end Tabular
