/-
Where a number belongs among numbers, found by bisection.

The numbers are those at the places from `base` on, `size` of them.  Where they
ascend, `bisect` parts those below the number from the rest
(`lt_of_lt_bisect`, `le_of_bisect_le`).  Where they do not, it is still a place
among theirs (`bisect_le`), and not before that of a lower number
(`bisect_mono`), but may be past one where the number stands.
-/

namespace Tabular

/-- The place of `x`, found by halving.  The part that is kept is never less
than half, so of an odd number of places the middle one may be looked at
again. -/
def bisect (numberAt : Nat → Nat) (x base size : Nat) : Nat :=
  if size = 0 then base
  else if size = 1 then if numberAt base < x then base + 1 else base
  else
    let half := size / 2
    if x < numberAt (base + half) then bisect numberAt x base (size - half)
    else bisect numberAt x (base + half) (size - half)
termination_by size

variable {numberAt : Nat → Nat} {x base size : Nat}

theorem le_bisect : base ≤ bisect numberAt x base size := by
  fun_induction bisect numberAt x base size <;> omega

theorem bisect_le : bisect numberAt x base size ≤ base + size := by
  fun_induction bisect numberAt x base size <;> omega

/-- It is not past the last place if the number there is above `x`. -/
theorem bisect_le_of_lt (hsize : 0 < size) (hx : x < numberAt (base + size - 1)) :
    bisect numberAt x base size ≤ base + size - 1 := by
  fun_induction bisect numberAt x base size with
  | case1 => omega
  | case2 base hlt =>
    rw [Nat.add_sub_cancel] at hx
    omega
  | case3 => omega
  | case4 base size _ _ half =>
    have : bisect numberAt x base (size - half) ≤ base + (size - half) := bisect_le
    omega
  | case5 base size _ _ half _ ih =>
    have hlast : base + half + (size - half) - 1 = base + size - 1 := by omega
    rw [hlast] at ih
    exact ih (by omega) hx

/-- Whether or not the numbers ascend, a higher one does not belong before a
lower one. -/
theorem bisect_mono {y : Nat} (hxy : x ≤ y) :
    bisect numberAt x base size ≤ bisect numberAt y base size := by
  fun_induction bisect numberAt x base size with
  | case1 => exact le_bisect
  | case2 base hlt =>
    rw [bisect, if_neg Nat.one_ne_zero, if_pos rfl]
    split <;> omega
  | case3 => exact le_bisect
  | case4 base size h0 h1 half hlt ih =>
    by_cases hy : y < numberAt (base + half)
    · rw [bisect.eq_def numberAt y, if_neg h0, if_neg h1, if_pos hy]
      exact ih
    · rw [bisect.eq_def numberAt y, if_neg h0, if_neg h1, if_neg hy]
      -- The part that is kept may reach past the middle, but `x` does not.
      have hle : bisect numberAt x base (size - half) ≤ base + half := by
        rcases Nat.lt_or_ge half (size - half) with hodd | heven
        · have hlast : base + (size - half) - 1 = base + half := by omega
          rw [← hlast]
          exact bisect_le_of_lt (by omega) (hlast.symm ▸ hlt)
        · exact Nat.le_trans bisect_le (by omega)
      exact Nat.le_trans hle le_bisect
  | case5 base size h0 h1 half hge ih =>
    have hy : ¬ y < numberAt (base + half) := by omega
    rw [bisect.eq_def numberAt y, if_neg h0, if_neg h1, if_neg hy]
    exact ih

/-- The numbers at those places ascend. -/
def AscendsOn (numberAt : Nat → Nat) (base size : Nat) : Prop :=
  ∀ i j, base ≤ i → i < j → j < base + size → numberAt i < numberAt j

theorem AscendsOn.mono {base' size' : Nat} (h : AscendsOn numberAt base size)
    (hb : base ≤ base') (hs : base' + size' ≤ base + size) : AscendsOn numberAt base' size' :=
  fun i j hi hij hj => h i j (by omega) hij (by omega)

/-- What stands before the place is below the number. -/
theorem lt_of_lt_bisect (h : AscendsOn numberAt base size) {i : Nat} (hi : base ≤ i)
    (hlt : i < bisect numberAt x base size) : numberAt i < x := by
  fun_induction bisect numberAt x base size with
  | case1 => omega
  | case2 base hx =>
    obtain rfl : i = base := by omega
    exact hx
  | case3 => omega
  | case4 base size _ _ half _ ih => exact ih (h.mono (by omega) (by omega)) hi hlt
  | case5 base size _ _ half hge ih =>
    rcases Nat.lt_or_ge i (base + half) with hih | hih
    · have := h i (base + half) hi hih (by omega)
      omega
    · exact ih (h.mono (by omega) (by omega)) hih hlt

/-- What stands from the place on is not below the number. -/
theorem le_of_bisect_le (h : AscendsOn numberAt base size) {i : Nat}
    (hle : bisect numberAt x base size ≤ i) (hi : i < base + size) : x ≤ numberAt i := by
  fun_induction bisect numberAt x base size with
  | case1 => omega
  | case2 => omega
  | case3 base =>
    obtain rfl : i = base := by omega
    omega
  | case4 base size _ _ half hlt ih =>
    rcases Nat.lt_or_ge i (base + (size - half)) with hih | hih
    · exact ih (h.mono (by omega) (by omega)) hle hih
    · -- What is left out stands no earlier than the middle.
      rcases Nat.eq_or_lt_of_le (show base + half ≤ i by omega) with rfl | hmid
      · omega
      · have := h (base + half) i (by omega) hmid hi
        omega
  | case5 base size _ _ half hge ih => exact ih (h.mono (by omega) (by omega)) hle (by omega)

end Tabular
