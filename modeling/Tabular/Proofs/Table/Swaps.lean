/-
What swaps make of the things they are applied to.

* `toArray_swap` — one swap brings the thing that is wanted to its place;
* `perm_set_idxOf` — and the one that makes way is among those still to come;
* `applySwaps_swapsFrom` — those from a position on put in order what stands
  from there on;
* `applySwaps_swapsOf` — so all of them put all things in the order given;
* `Places.swaps_eq_swapsFrom`, `swapSequence_eq` — keeping track of where
  everything is finds the same swaps as searching for it;
* `swapsOf_realises` — they do so for any things, by swaps of two different
  places each, of which there are fewer than things.

Design notes: what the swaps are applied to need not be the numbers they were
found with, so a function says which thing each number stands for.
-/
import Mathlib.Data.List.Perm.Basic
import Tabular.Table.Swaps

namespace Tabular

variable {α : Type}

/-- A swap of two things, the first of which comes after `front`. -/
theorem toArray_swap (front : List α) (x : α) {rest : List α} {j : Nat} (hj : j < rest.length) :
    (front ++ x :: rest).toArray.swapIfInBounds front.length (front.length + 1 + j) =
      (front ++ rest[j] :: rest.set j x).toArray := by
  have hlength : (front ++ x :: rest).length = front.length + 1 + rest.length := by
    rw [List.length_append, List.length_cons]
    omega
  have hsize : (front ++ x :: rest).toArray.size = front.length + 1 + rest.length := hlength
  have hi : front.length < (front ++ x :: rest).length := by omega
  have hi' : front.length + 1 + j < (front ++ x :: rest).length := by omega
  have hplace : front.length + 1 + j - front.length = j + 1 := by omega
  have hfirst : (front ++ x :: rest)[front.length] = x := by simp
  have hsecond : (front ++ x :: rest)[front.length + 1 + j] = rest[j] := by
    rw [List.getElem_append_right (by omega)]
    simp only [hplace, List.getElem_cons_succ]
  rw [Array.swapIfInBounds_def, dif_pos (by omega), dif_pos (by omega)]
  refine Array.toList_inj.mp ?_
  rw [Array.toList_swap, List.getElem_toArray, List.getElem_toArray, hfirst, hsecond,
    List.set_append_right _ _ (Nat.le_refl _), Nat.sub_self, List.set_cons_zero,
    List.set_append_right _ _ (by omega), hplace, List.set_cons_succ]

/-- Where something else stands than what is wanted, that is further on, and
what stands there is still to come once it has made way. -/
theorem perm_set_idxOf {wanted x : Nat} {order standing : List Nat}
    (h : (wanted :: order).Perm (x :: standing)) (hx : x ≠ wanted) :
    standing.idxOf wanted < standing.length ∧
      order.Perm (standing.set (standing.idxOf wanted) x) := by
  have hmem : wanted ∈ standing := by
    have hwanted := h.subset (List.mem_cons_self ..)
    exact (List.mem_cons.mp hwanted).resolve_left (Ne.symm hx)
  have hj : standing.idxOf wanted < standing.length := List.idxOf_lt_length_of_mem hmem
  have hout := List.getElem_cons_eraseIdx_perm hj
  rw [List.getElem_idxOf] at hout
  refine ⟨hj, (List.Perm.cons_inv (a := wanted) ?_).trans (List.set_perm_cons_eraseIdx hj x).symm⟩
  exact h.trans ((hout.symm.cons x).trans (List.Perm.swap ..))

/-- The swaps from a position on put in order what stands from there on. -/
theorem applySwaps_swapsFrom (f : Nat → α) {order standing : List Nat} (h : order.Perm standing)
    (done : List α) :
    applySwaps (swapsFrom done.length order standing) (done ++ standing.map f).toArray =
      (done ++ order.map f).toArray := by
  -- On what is wanted, of which one more is at its place after each step.
  induction order generalizing standing done with
  | nil =>
    obtain rfl := h.nil_eq
    rfl
  | cons wanted order ih =>
    cases standing with
    | nil => exact absurd h.length_eq (by simp)
    | cons x standing =>
      have hnext : ∀ {standing : List Nat}, order.Perm standing →
          applySwaps (swapsFrom (done.length + 1) order standing)
              (done ++ f wanted :: standing.map f).toArray =
            (done ++ f wanted :: order.map f).toArray := by
        intro standing hrest
        have hdone := ih hrest (done ++ [f wanted])
        rw [List.length_append, List.append_assoc, List.append_assoc] at hdone
        exact hdone
      rw [swapsFrom]
      by_cases hx : x = wanted
      · subst hx
        rw [if_pos rfl]
        exact hnext h.cons_inv
      · obtain ⟨hj, hrest⟩ := perm_set_idxOf h hx
        rw [if_neg hx, applySwaps, List.foldl_cons]
        dsimp only
        rw [List.map_cons, toArray_swap done (f x) (by rwa [List.length_map]), List.getElem_map,
          List.getElem_idxOf, ← List.map_set]
        exact hnext hrest

/-- The swaps of an order put things in that order. -/
theorem applySwaps_swapsOf (f : Nat → α) {order : List Nat} {n : Nat}
    (h : order.Perm (List.range n)) :
    applySwaps (swapsOf order) ((List.range n).map f).toArray = (order.map f).toArray := by
  have hlength : order.length = n := h.length_eq.trans List.length_range
  rw [swapsOf, hlength]
  exact applySwaps_swapsFrom f h []

/-- Each swap is of two places, from the position on. -/
theorem lt_of_mem_swapsFrom {i : Nat} {order standing : List Nat} (h : order.Perm standing)
    {s : Nat × Nat} (hs : s ∈ swapsFrom i order standing) :
    s.1 < s.2 ∧ s.2 < i + standing.length := by
  induction order generalizing i standing with
  | nil => cases hs
  | cons wanted order ih =>
    cases standing with
    | nil => cases hs
    | cons x standing =>
      rw [List.length_cons]
      rw [swapsFrom] at hs
      split at hs
      · rename_i hx
        subst hx
        obtain ⟨hlt, hle⟩ := ih h.cons_inv hs
        exact ⟨hlt, by omega⟩
      · rename_i hx
        obtain ⟨hj, hrest⟩ := perm_set_idxOf h hx
        rcases List.mem_cons.mp hs with rfl | hs
        · dsimp only
          omega
        · obtain ⟨hlt, hle⟩ := ih hrest hs
          rw [List.length_set] at hle
          exact ⟨hlt, by omega⟩

/-- Once all but one are in place, so is that one. -/
theorem length_swapsFrom_le {i : Nat} {order standing : List Nat} (h : order.Perm standing) :
    (swapsFrom i order standing).length ≤ order.length - 1 := by
  induction order generalizing i standing with
  | nil => exact Nat.le_refl 0
  | cons wanted order ih =>
    cases standing with
    | nil => exact Nat.zero_le _
    | cons x standing =>
      rw [swapsFrom, List.length_cons, Nat.add_sub_cancel]
      split
      · rename_i hx
        subst hx
        exact Nat.le_trans (ih h.cons_inv) (Nat.sub_le ..)
      · rename_i hx
        obtain ⟨hj, hrest⟩ := perm_set_idxOf h hx
        have hlength : order.length = standing.length := by
          rw [hrest.length_eq, List.length_set]
        have hle := @ih (i + 1) _ hrest
        rw [List.length_cons]
        omega

/-- The swaps of an order put the things of an array in that order. -/
theorem getElem?_applySwaps_swapsOf {order : List Nat} {xs : Array α}
    (h : order.Perm (List.range xs.size)) (i : Nat) :
    (applySwaps (swapsOf order) xs)[i]? = order[i]?.bind fun row => xs[row]? := by
  by_cases hsize : 0 < xs.size
  · -- The thing that each number stands for.
    obtain ⟨f, hf⟩ : ∃ f : Nat → α, ∀ row < xs.size, xs[row]? = some (f row) := by
      refine ⟨fun row => xs[row]?.getD xs[0], fun row hrow => ?_⟩
      simp [hrow]
    have hxs : ((List.range xs.size).map f).toArray = xs := by
      refine Array.ext_getElem? fun row => ?_
      rw [List.getElem?_toArray, List.getElem?_map]
      by_cases hrow : row < xs.size
      · rw [List.getElem?_range hrow, hf row hrow, Option.map_some]
      · rw [List.getElem?_eq_none (by rw [List.length_range]; omega),
          Array.getElem?_eq_none (by omega), Option.map_none]
    have hswaps := applySwaps_swapsOf f h
    rw [hxs] at hswaps
    rw [hswaps, List.getElem?_toArray, List.getElem?_map]
    cases hrow : order[i]? with
    | none => rfl
    | some row =>
      have hmem := h.subset (List.mem_of_getElem? hrow)
      exact (hf row (List.mem_range.mp hmem)).symm
  · obtain rfl : xs = #[] := Array.eq_empty_of_size_eq_zero (by omega)
    obtain rfl := h.eq_nil
    rfl

/-! ### Where everything is -/

namespace Places

variable {t : Places} {i j x wanted : Nat} {order : List Nat}

/-- Nothing stands at two positions. -/
theorem idxOf_standing (hstands : t.standing[j]? = some wanted) (hle : i ≤ j) :
    (t.standing.toList.drop i).idxOf wanted = j - i := by
  have hmem : wanted ∈ t.standing.toList.drop i := by
    refine List.mem_of_getElem? (i := j - i) ?_
    rw [List.getElem?_drop, Nat.add_sub_cancel' hle, Array.getElem?_toList, hstands]
  have hfound : t.standing[i + (t.standing.toList.drop i).idxOf wanted]? = some wanted := by
    rw [← Array.getElem?_toList, ← List.getElem?_drop]
    exact List.getElem?_idxOf hmem
  have hplace := (t.standing_eq_iff hstands _).mp hfound
  omega

/-- Where something else stands there is no place for it. -/
theorem lt_of_ne {p y : Nat} (hi : t.standing[i]? = some x) (hp : t.places[y]? = some p)
    (hle : i ≤ p) (hne : y ≠ x) : i < p := by
  refine Nat.lt_of_le_of_ne hle ?_
  rintro rfl
  exact hne (Option.some.inj (((t.inverse _ _).mpr hp).symm.trans hi))

theorem swaps_cons (hi : t.standing[i]? = some x) (hj : t.places[wanted]? = some j) :
    t.swaps i (wanted :: order) =
      if j = i then t.swaps (i + 1) order
      else (i, j) :: (t.exchange hi hj).swaps (i + 1) order := by
  rw [swaps]
  split
  · rename_i hj' hi'
    obtain rfl := Option.some.inj (hj.symm.trans hj')
    obtain rfl := Option.some.inj (hi.symm.trans hi')
    rfl
  · rename_i hnone
    exact absurd hi (hnone _ _ hj)

/-- What stands further on once something has made way to there. -/
theorem drop_standing_exchange (hi : t.standing[i]? = some x) (hj : t.places[wanted]? = some j)
    (hlt : i < j) :
    (t.exchange hi hj).standing.toList.drop (i + 1) =
      (t.standing.toList.drop (i + 1)).set (j - (i + 1)) x := by
  have hstands := (t.inverse j wanted).mpr hj
  have hsize := (Array.getElem?_eq_some_iff.mp hstands).1
  refine List.ext_getElem? fun k => ?_
  rw [List.getElem?_drop, Array.getElem?_toList, exchange, getElem?_swapIfInBounds hi hstands,
    if_neg (by omega)]
  rw [List.getElem?_set, List.length_drop, Array.length_toList, List.getElem?_drop,
    Array.getElem?_toList]
  grind

/-- Where everything that is wanted stands at a position or after it, the same
swaps are found from there on as by searching for each thing. -/
theorem swaps_eq_swapsFrom (hnodup : order.Nodup)
    (hfrom : ∀ y ∈ order, ∃ p, t.places[y]? = some p ∧ i ≤ p) :
    t.swaps i order = swapsFrom i order (t.standing.toList.drop i) := by
  induction order generalizing t i with
  | nil => rfl
  | cons wanted order ih =>
    obtain ⟨hout, hrest⟩ := List.nodup_cons.mp hnodup
    obtain ⟨j, hj, hle⟩ := hfrom wanted (List.mem_cons_self ..)
    have hstands := (t.inverse j wanted).mpr hj
    have hsize : i < t.standing.size :=
      Nat.lt_of_le_of_lt hle (Array.getElem?_eq_some_iff.mp hstands).1
    obtain ⟨x, hi⟩ : ∃ x, t.standing[i]? = some x := ⟨_, Array.getElem?_eq_getElem hsize⟩
    have hdrop : t.standing.toList.drop i = x :: t.standing.toList.drop (i + 1) := by
      rw [← Array.getElem?_toList] at hi
      exact List.drop_eq_getElem?_toList_append.trans (by rw [hi]; rfl)
    rw [swaps_cons hi hj, hdrop, swapsFrom]
    by_cases hji : j = i
    · subst hji
      obtain rfl : x = wanted := Option.some.inj (hi.symm.trans hstands)
      rw [if_pos rfl, if_pos rfl]
      refine ih hrest fun y hy => ?_
      obtain ⟨p, hp, hple⟩ := hfrom y (List.mem_cons_of_mem _ hy)
      exact ⟨p, hp, lt_of_ne hi hp hple (ne_of_mem_of_not_mem hy hout)⟩
    · have hlt : i < j := by omega
      have hx : x ≠ wanted := by
        rintro rfl
        exact hji ((t.standing_eq_iff hi j).mp hstands)
      rw [if_neg hji, if_neg hx, idxOf_standing hstands hlt]
      dsimp only
      rw [Nat.add_sub_cancel' hlt, ← drop_standing_exchange hi hj hlt]
      refine congrArg ((i, j) :: ·) (ih hrest fun y hy => ?_)
      obtain ⟨p, hp, hple⟩ := hfrom y (List.mem_cons_of_mem _ hy)
      have hne : y ≠ wanted := ne_of_mem_of_not_mem hy hout
      rw [exchange, getElem?_setIfInBounds_two hj ((t.inverse _ _).mp hi), if_neg hne]
      by_cases hyx : y = x
      · exact ⟨j, if_pos hyx, hlt⟩
      · exact ⟨p, (if_neg hyx).trans hp, lt_of_ne hi hp hple hyx⟩

end Places

/-- Keeping track of where everything is finds the same swaps. -/
theorem swapSequence_eq {order : List Nat} {n : Nat} (h : order.Perm (List.range n)) :
    swapSequence order = swapsOf order := by
  have hlength : order.length = n := h.length_eq.trans List.length_range
  rw [swapSequence, swapsOf, Places.swaps_eq_swapsFrom]
  · rw [Places.start, List.drop_zero, Array.toList_range]
  · exact h.nodup_iff.mpr List.nodup_range
  · intro x hx
    have hlt := List.mem_range.mp (h.subset hx)
    refine ⟨x, ?_, Nat.zero_le x⟩
    rw [Places.start, Array.getElem?_range, if_pos (hlength.symm ▸ hlt)]

/-- The swaps of an order bring any things into that order, whether they are
found by searching or by keeping track of where everything is.  Each is of two
different places, and there are fewer swaps than things. -/
theorem swapsOf_realises {order : List Nat} {xs : Array α} (h : order.Perm (List.range xs.size)) :
    swapSequence order = swapsOf order ∧
    (∀ i : Nat, (applySwaps (swapsOf order) xs)[i]? = order[i]?.bind fun row => xs[row]?) ∧
    (∀ s ∈ swapsOf order, s.1 < s.2 ∧ s.2 < xs.size) ∧
    (swapsOf order).length ≤ xs.size - 1 := by
  have hlength : order.length = xs.size := h.length_eq.trans List.length_range
  have hrange : order.Perm (List.range order.length) := hlength.symm ▸ h
  refine ⟨swapSequence_eq h, getElem?_applySwaps_swapsOf h, fun s hs => ?_, ?_⟩
  · have hlt := lt_of_mem_swapsFrom hrange hs
    rwa [List.length_range, Nat.zero_add, hlength] at hlt
  · exact hlength ▸ length_swapsFrom_le hrange

/-- Four things in an order in which none stays and no two change places. -/
theorem swapsOf_realises_four :
    let order := [2, 0, 3, 1]
    let xs := #['a', 'b', 'c', 'd']
    order.Perm (List.range xs.size) ∧ swapSequence order = swapsOf order ∧
      (∀ i : Nat, (applySwaps (swapsOf order) xs)[i]? = order[i]?.bind fun row => xs[row]?) ∧
      (∀ s ∈ swapsOf order, s.1 < s.2 ∧ s.2 < xs.size) ∧ (swapsOf order).length ≤ xs.size - 1 := by
  intro order xs
  have hperm : order.Perm (List.range xs.size) := by decide
  exact ⟨hperm, swapsOf_realises hperm⟩

end Tabular
