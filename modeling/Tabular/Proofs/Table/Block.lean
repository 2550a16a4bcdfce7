/-
Texts in a block are found again where they were put.

* `cutAt?_append`, `cutAt?_size` — cutting looks at nothing after the cut, and
  parts a text after any of its characters;
* `Block.get?_push_of_get?` — a text that is found stays found;
* `Block.get?_push_self` — a text is found at the offset where it was put.
-/
import Mathlib.Algebra.Order.Ring.Nat
import Mathlib.Tactic.Common
import Tabular.Table.Block

namespace Tabular

/-- The number of bytes that characters take. -/
def bytesOf (cs : List Char) : Nat := (cs.map Char.utf8Size).sum

theorem utf8ByteSize_ofList (cs : List Char) : (String.ofList cs).utf8ByteSize = bytesOf cs := by
  induction cs with
  | nil => rfl
  | cons c cs ih =>
    have hcons : String.ofList (c :: cs) = String.singleton c ++ String.ofList cs := by
      rw [← String.toList_inj]
      simp
    rw [hcons, String.utf8ByteSize_append, String.utf8ByteSize_singleton, ih, bytesOf, bytesOf,
      List.map_cons, List.sum_cons]

theorem utf8ByteSize_eq (s : String) : s.utf8ByteSize = bytesOf s.toList := by
  rw [← utf8ByteSize_ofList, String.ofList_toList]

/-- A cut is the same whatever comes after. -/
theorem cutAt?_append {n : Nat} {cs as bs : List Char} (h : cutAt? n cs = some (as, bs))
    (ds : List Char) : cutAt? n (cs ++ ds) = some (as, bs ++ ds) := by
  induction cs generalizing n as with
  | nil =>
    cases n with
    | zero =>
      obtain ⟨rfl, rfl⟩ : [] = as ∧ [] = bs := by simpa [cutAt?] using h
      rw [cutAt?]
    | succ n => simp [cutAt?] at h
  | cons c cs ih =>
    cases n with
    | zero =>
      obtain ⟨rfl, rfl⟩ : [] = as ∧ c :: cs = bs := by simpa [cutAt?] using h
      rw [cutAt?]
    | succ n =>
      -- The cut falls further on, and the rest of it is by induction.
      rw [List.cons_append, cutAt?]
      rw [cutAt?] at h
      split at h
      · rename_i hle
        obtain ⟨⟨as', bs'⟩, hcut, heq⟩ := Option.map_eq_some_iff.mp h
        obtain ⟨rfl, rfl⟩ : c :: as' = as ∧ bs' = bs := by simpa using heq
        rw [if_pos hle, ih hcut]
        rfl
      · simp at h

/-- A text can be cut after any of its characters. -/
theorem cutAt?_size (cs ds : List Char) : cutAt? (bytesOf cs) (cs ++ ds) = some (cs, ds) := by
  induction cs with
  | nil => cases ds <;> rfl
  | cons c cs ih =>
    have hpos := c.utf8Size_pos
    -- A character takes a byte at least, so the cut goes on past it.
    obtain ⟨n, hn⟩ : ∃ n, bytesOf (c :: cs) = n + 1 :=
      ⟨c.utf8Size + bytesOf cs - 1, by rw [bytesOf, List.map_cons, List.sum_cons, ← bytesOf]; omega⟩
    have hsub : n + 1 - c.utf8Size = bytesOf cs := by
      rw [← hn, bytesOf, List.map_cons, List.sum_cons, Nat.add_sub_cancel_left, bytesOf]
    have hle : c.utf8Size ≤ n + 1 := by
      rw [← hn, bytesOf, List.map_cons, List.sum_cons]
      exact Nat.le_add_right ..
    rw [hn, List.cons_append, cutAt?, if_pos hle, hsub, ih]
    rfl

namespace Block

/-- A text that is found in a block is still found when another has been put
after it. -/
theorem get?_push_of_get? {b : Block} {offset length : Nat} {v : String}
    (h : b.get? offset length = some v) (value : String) :
    (b.push value).get? offset length = some v := by
  simp only [get?, Option.bind_eq_bind, Option.bind_eq_some_iff] at h ⊢
  obtain ⟨⟨as, tail⟩, hcut, ⟨cs, ds⟩, hcut', hv⟩ := h
  have hcontent : (b.push value).content.toList =
      b.content.toList ++ (value ++ "\x00").toList := by
    simp [push, String.append_assoc]
  refine ⟨(as, tail ++ (value ++ "\x00").toList), ?_, (cs, ds ++ (value ++ "\x00").toList), ?_, hv⟩
  · rw [hcontent, cutAt?_append hcut]
  · exact cutAt?_append hcut' _

/-- A text is found where it was put. -/
theorem get?_push_self (b : Block) (value : String) :
    (b.push value).get? b.used value.utf8ByteSize = some value := by
  have hcontent : (b.push value).content.toList =
      b.content.toList ++ (value.toList ++ "\x00".toList) := by
    simp [push, String.append_assoc]
  simp only [get?, Option.bind_eq_bind, used, utf8ByteSize_eq, hcontent, cutAt?_size,
    Option.bind_some, String.ofList_toList]
  rfl

end Block

end Tabular
