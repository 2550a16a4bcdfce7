/-
Permutations as sequences of swaps.

`swapsOf order` brings the things of a list into a new order, in which the one
at `i` is that which stood at `order[i]`, by swapping two of them at a time.
Each swap puts one thing where it stays, so there are fewer swaps than things.

`swapSequence order` finds the same swaps without a search, by keeping track
of where everything is (`Places`).
-/

namespace Tabular

/-- Swaps things one pair of positions after another. -/
def applySwaps {α : Type} (swaps : List (Nat × Nat)) (xs : Array α) : Array α :=
  swaps.foldl (fun xs s => xs.swapIfInBounds s.1 s.2) xs

/-- The swaps from position `i` on, where the things wanted from there on are
`order` and those that stand there are `standing`. -/
def swapsFrom (i : Nat) : (order standing : List Nat) → List (Nat × Nat)
  | [], _ => []
  | _ :: _, [] => []
  | wanted :: order, x :: standing =>
    if x = wanted then swapsFrom (i + 1) order standing
    else
      -- What stood at `i` makes way to where the one wanted has been.
      let j := standing.idxOf wanted
      (i, i + 1 + j) :: swapsFrom (i + 1) order (standing.set j x)

/-- Swaps that bring things into the order given. -/
def swapsOf (order : List Nat) : List (Nat × Nat) :=
  swapsFrom 0 order (List.range order.length)

/-! ### Without a search -/

theorem getElem?_swapIfInBounds {xs : Array Nat} {i j x y : Nat} (hi : xs[i]? = some x)
    (hj : xs[j]? = some y) (p : Nat) :
    (xs.swapIfInBounds i j)[p]? = if p = i then some y else if p = j then some x else xs[p]? := by
  obtain ⟨hisize, hx⟩ := Array.getElem?_eq_some_iff.mp hi
  obtain ⟨hjsize, hy⟩ := Array.getElem?_eq_some_iff.mp hj
  rw [Array.swapIfInBounds_def, dif_pos hisize, dif_pos hjsize, Array.getElem?_swap, hx, hy]
  by_cases hpi : p = i
  · by_cases hpj : p = j
    · -- A place is swapped with itself.
      rw [if_pos hpj.symm, if_pos hpi, ← hi, ← hj, ← hpi, ← hpj]
    · rw [if_neg (Ne.symm hpj), if_pos hpi.symm, if_pos hpi]
  · by_cases hpj : p = j
    · rw [if_pos hpj.symm, if_neg hpi, if_pos hpj]
    · rw [if_neg (Ne.symm hpj), if_neg (Ne.symm hpi), if_neg hpi, if_neg hpj]

theorem getElem?_setIfInBounds_two {xs : Array Nat} {i j x y : Nat} (hx : xs[x]? = some i)
    (hy : xs[y]? = some j) (z : Nat) :
    ((xs.setIfInBounds x j).setIfInBounds y i)[z]? =
      if z = y then some i else if z = x then some j else xs[z]? := by
  obtain ⟨hxsize, -⟩ := Array.getElem?_eq_some_iff.mp hx
  obtain ⟨hysize, -⟩ := Array.getElem?_eq_some_iff.mp hy
  rw [Array.getElem?_setIfInBounds, Array.getElem?_setIfInBounds, Array.size_setIfInBounds,
    if_pos hxsize, if_pos hysize]
  simp only [eq_comm]

/-- What stands at each position, and the position of each thing. -/
structure Places where
  standing : Array Nat
  places : Array Nat
  inverse : ∀ p x : Nat, standing[p]? = some x ↔ places[x]? = some p

namespace Places

/-- Each thing at its own position. -/
def start (n : Nat) : Places where
  standing := Array.range n
  places := Array.range n
  inverse p x := by
    rw [Array.getElem?_range, Array.getElem?_range, Option.ite_none_right_eq_some,
      Option.ite_none_right_eq_some, Option.some_inj, Option.some_inj]
    constructor
    · rintro ⟨hp, rfl⟩
      exact ⟨hp, rfl⟩
    · rintro ⟨hx, rfl⟩
      exact ⟨hx, rfl⟩

theorem standing_eq_iff (t : Places) {i x : Nat} (hi : t.standing[i]? = some x) (p : Nat) :
    t.standing[p]? = some x ↔ p = i := by
  rw [t.inverse, (t.inverse i x).mp hi, Option.some_inj, eq_comm]

theorem places_eq_iff (t : Places) {j y : Nat} (hj : t.places[y]? = some j) (z : Nat) :
    t.places[z]? = some j ↔ z = y := by
  rw [← t.inverse, (t.inverse j y).mpr hj, Option.some_inj, eq_comm]

/-- Each still is where it is said to be once two have changed places. -/
theorem inverse_exchange (t : Places) {i j x y : Nat} (hi : t.standing[i]? = some x)
    (hj : t.places[y]? = some j) (p z : Nat) :
    (t.standing.swapIfInBounds i j)[p]? = some z ↔
      ((t.places.setIfInBounds y i).setIfInBounds x j)[z]? = some p := by
  have hx := (t.inverse i x).mp hi
  have hy := (t.inverse j y).mpr hj
  have hz := t.inverse p z
  have hpi := t.standing_eq_iff hi p
  have hpj := t.standing_eq_iff hy p
  have hzx := t.places_eq_iff hx z
  have hzy := t.places_eq_iff hj z
  have hij : x = y ↔ j = i := by
    rw [← t.standing_eq_iff hi j, hy, Option.some_inj, eq_comm]
  rw [getElem?_swapIfInBounds hi hy, getElem?_setIfInBounds_two hj hx]
  generalize t.standing[p]? = atP at hz hpi hpj ⊢
  generalize t.places[z]? = ofZ at hz hzx hzy ⊢
  grind

/-- Two things change places. -/
def exchange (t : Places) {i j x y : Nat} (hi : t.standing[i]? = some x)
    (hj : t.places[y]? = some j) : Places where
  standing := t.standing.swapIfInBounds i j
  places := (t.places.setIfInBounds y i).setIfInBounds x j
  inverse := t.inverse_exchange hi hj

/-- The swaps from position `i` on, where the things wanted from there on are
`order`. -/
def swaps (t : Places) (i : Nat) : (order : List Nat) → List (Nat × Nat)
  | [] => []
  | wanted :: order =>
    match hj : t.places[wanted]?, hi : t.standing[i]? with
    | some j, some _ =>
      if j = i then t.swaps (i + 1) order
      else (i, j) :: (t.exchange hi hj).swaps (i + 1) order
    -- There is no such thing, or no such position.
    | _, _ => []

end Places

/-- Swaps that bring things into the order given. -/
def swapSequence (order : List Nat) : List (Nat × Nat) :=
  (Places.start order.length).swaps 0 order

end Tabular
