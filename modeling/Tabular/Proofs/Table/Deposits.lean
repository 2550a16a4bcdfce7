/-
What a column has been given, and where it keeps it.

* `Block.HasAt` — a text lies in a block, and its NUL after it;
* `Deposit` — a text that was put into a column, with its handle;
* `Column.exists_open` — a text that is not empty goes to the end of a block
  that has room for it;
* `Column.Books` — the deposits of a column lie apart from each other in its
  blocks, which hold nothing else, and its cells have their handles;
* `Books.add`, `Books.of_handles` — a text more, and cells that are moved, put in
  another order or dropped;
* `Books.keeps` — what that says of the cells.

Design notes: a column forgets which texts it was given, so these are listed
beside it.  Nothing is said of rows here: a column keeps its texts even where
its rows have come out of order.
-/
import Tabular.Proofs.Table.Handles

namespace Tabular

namespace Block

variable {b : Block} {offset : Nat} {v : String}

/-- A text lies in a block at an offset, with its NUL after it. -/
def HasAt (b : Block) (offset : Nat) (v : String) : Prop :=
  ∃ front back, b.content.toList = front ++ (v.toList ++ '\x00' :: back) ∧ bytesOf front = offset

theorem used_push (b : Block) (value : String) :
    (b.push value).used = b.used + value.utf8ByteSize + 1 := by
  show (b.content ++ value ++ "\x00").utf8ByteSize = _
  rw [String.utf8ByteSize_append, String.utf8ByteSize_append]
  rfl

theorem toList_push (b : Block) (value : String) :
    (b.push value).content.toList = b.content.toList ++ (value.toList ++ ['\x00']) := by
  simp [push, String.append_assoc]

/-- What lies in a block stays where it is. -/
theorem HasAt.push (h : b.HasAt offset v) (value : String) : (b.push value).HasAt offset v := by
  obtain ⟨front, back, hcontent, hoffset⟩ := h
  refine ⟨front, back ++ (value.toList ++ ['\x00']), ?_, hoffset⟩
  rw [toList_push, hcontent, List.append_assoc, List.append_assoc, List.cons_append]

theorem hasAt_push_self (b : Block) (value : String) : (b.push value).HasAt b.used value :=
  ⟨b.content.toList, [], toList_push b value, (utf8ByteSize_eq b.content).symm⟩

theorem bytesOf_append (cs ds : List Char) : bytesOf (cs ++ ds) = bytesOf cs + bytesOf ds := by
  rw [bytesOf, bytesOf, bytesOf, List.map_append, List.sum_append]

namespace HasAt

/-- The text can be cut out of the block. -/
theorem get? (h : b.HasAt offset v) : b.get? offset v.utf8ByteSize = some v := by
  obtain ⟨front, back, hcontent, rfl⟩ := h
  rw [Block.get?, hcontent, cutAt?_size, utf8ByteSize_eq]
  show (cutAt? (bytesOf v.toList) (v.toList ++ '\x00' :: back)).bind
    (fun cut => some (String.ofList cut.1)) = some v
  rw [cutAt?_size]
  exact congrArg some (String.ofList_toList)

/-- So can the NUL after it. -/
theorem get?_nul (h : b.HasAt offset v) :
    b.get? (offset + v.utf8ByteSize) 1 = some "\x00" := by
  obtain ⟨front, back, hcontent, rfl⟩ := h
  have hsplit : front ++ (v.toList ++ '\x00' :: back) =
      (front ++ v.toList) ++ (['\x00'] ++ back) := by simp
  have hfront : bytesOf front + v.utf8ByteSize = bytesOf (front ++ v.toList) := by
    rw [bytesOf_append, utf8ByteSize_eq]
  rw [Block.get?, hcontent, hsplit, hfront, cutAt?_size]
  show (cutAt? (bytesOf ['\x00']) (['\x00'] ++ back)).bind
    (fun cut => some (String.ofList cut.1)) = some "\x00"
  rw [cutAt?_size]
  rfl

/-- Both are within what is in use. -/
theorem lt_used (h : b.HasAt offset v) : offset + v.utf8ByteSize < b.used := by
  obtain ⟨front, back, hcontent, rfl⟩ := h
  have hcons : bytesOf ('\x00' :: back) = 1 + bytesOf back := by
    rw [bytesOf, List.map_cons, List.sum_cons, ← bytesOf]
    rfl
  rw [used, utf8ByteSize_eq, utf8ByteSize_eq, hcontent, bytesOf_append, bytesOf_append, hcons]
  omega

end HasAt

end Block

/-- A text that was put into a column, and the handle that it was given. -/
structure Deposit where
  value : String
  handle : Handle
  deriving DecidableEq

namespace Deposit

/-- The bytes that it takes: one more than the text, or none if that is
empty. -/
def size (d : Deposit) : Nat := if d.value = "" then 0 else d.value.utf8ByteSize + 1

/-- The text lies where its handle says. -/
def LiesIn (blocks : Array Block) (d : Deposit) : Prop :=
  match d.handle with
  | .empty => d.value = ""
  | .stored block offset length =>
    d.value ≠ "" ∧ length = d.value.utf8ByteSize ∧
      ∃ b, blocks[block]? = some b ∧ b.HasAt offset d.value

end Deposit

/-- Two handles are not on texts that overlap, their NULs included. -/
def Handle.Apart : Handle → Handle → Prop
  | .stored block offset length, .stored block' offset' length' =>
    block = block' → offset + length + 1 ≤ offset' ∨ offset' + length' + 1 ≤ offset
  | _, _ => True

theorem Handle.Apart.symm {h h' : Handle} (ha : h.Apart h') : h'.Apart h := by
  cases h with
  | empty => cases h' <;> trivial
  | stored block offset length =>
    cases h' with
    | empty => trivial
    | stored block' offset' length' => exact fun heq => (ha heq.symm).symm

namespace Column

variable {c c' : Column} {config : TableConfig} {value : String} {blocks : Array Block}
  {deposits : List Deposit}

/-! ### A text goes to the end of a block -/

/-- A block comes last, or it has just been made to come after the others. -/
def Opens (blocks front : Array Block) (b : Block) : Prop :=
  blocks = front.push b ∨ blocks = front ∧ b.used = 0

namespace Opens

variable {front : Array Block} {b b' : Block}

/-- The other blocks come before it. -/
theorem cases_getElem? (h : Opens blocks front b) {i : Nat} (hi : blocks[i]? = some b') :
    i < front.size ∧ front[i]? = some b' ∨ i = front.size ∧ b' = b := by
  have hfront : ∀ b', front[i]? = some b' → i < front.size := fun b' hb' =>
    (Array.getElem?_eq_some_iff.mp hb').1
  rcases h with rfl | ⟨rfl, -⟩
  · rw [Array.getElem?_push] at hi
    split at hi
    · rename_i heq
      exact .inr ⟨heq, (Option.some.inj hi).symm⟩
    · exact .inl ⟨hfront _ hi, hi⟩
  · exact .inl ⟨hfront _ hi, hi⟩

theorem used (h : Opens blocks front b) :
    (blocks.toList.map Block.used).sum = (front.toList.map Block.used).sum + b.used := by
  rcases h with rfl | ⟨rfl, hb⟩
  · rw [Array.toList_push, List.map_append, List.sum_append]
    rfl
  · rw [hb, Nat.add_zero]

/-- What lies in the blocks still does when a text is put into it. -/
theorem liesIn_push (h : Opens blocks front b) {d : Deposit} (hd : d.LiesIn blocks)
    (value : String) : d.LiesIn (front.push (b.push value)) := by
  rw [Deposit.LiesIn] at hd ⊢
  cases hhandle : d.handle with
  | empty =>
    rw [hhandle] at hd
    exact hd
  | stored block offset length =>
    rw [hhandle] at hd
    obtain ⟨hne, hlen, b', hb', hat⟩ := hd
    refine ⟨hne, hlen, ?_⟩
    rcases h.cases_getElem? hb' with ⟨hlt, hfront⟩ | ⟨rfl, rfl⟩
    · refine ⟨b', ?_, hat⟩
      rw [Array.getElem?_push, if_neg (Nat.ne_of_lt hlt), hfront]
    · exact ⟨_, Array.getElem?_push_size, hat.push value⟩

/-- The text that is put into it comes after all that lies in the blocks. -/
theorem apart (h : Opens blocks front b) {d : Deposit} (hd : d.LiesIn blocks) (length : Nat) :
    (Handle.stored front.size b.used length).Apart d.handle := by
  rw [Deposit.LiesIn] at hd
  cases hhandle : d.handle with
  | empty => trivial
  | stored block offset length =>
    rw [hhandle] at hd
    obtain ⟨-, hlen, b', hb', hat⟩ := hd
    rintro rfl
    rcases h.cases_getElem? hb' with ⟨hlt, -⟩ | ⟨-, rfl⟩
    · exact absurd hlt (Nat.lt_irrefl _)
    · rw [hlen]
      exact .inr hat.lt_used

end Opens

/-- A text that is not empty goes to the end of the last block or of a new one,
which has room for it. -/
theorem exists_open (hv : value ≠ "") (hadmits : config.admits value) (blocks : Array Block) :
    ∃ front b, b.used + value.utf8ByteSize < b.capacity ∧
      Opens blocks front b ∧
      store config value blocks =
        (.stored front.size b.used value.utf8ByteSize, front.push (b.push value)) := by
  have hempty : ¬ value.isEmpty := mt String.isEmpty_iff.mp hv
  rw [store, if_neg hempty]
  dsimp only
  split
  · rename_i offset hroom
    obtain ⟨b, hb, hroom⟩ := Option.bind_eq_some_iff.mp hroom
    obtain rfl := room?_eq_some hroom
    rw [Block.room?, Option.ite_none_right_eq_some] at hroom
    have hfits : value.utf8ByteSize < b.capacity - b.used := of_decide_eq_true hroom.1
    -- There is a last block, and it is the one that is written to.
    have hlt : blocks.size - 1 < blocks.size := by
      by_contra hge
      rw [Array.getElem?_eq_none (Nat.le_of_not_lt hge)] at hb
      simp at hb
    obtain ⟨front, rfl⟩ : ∃ front : Array Block, blocks = front.push b := by
      refine ⟨blocks.pop, (Array.ext_getElem? fun i => ?_)⟩
      rw [Array.getElem?_push, Array.size_pop]
      split
      · rename_i hi
        rw [hi, hb]
      · rename_i hi
        rw [Array.getElem?_pop]
        split
        · rfl
        · rw [Array.getElem?_eq_none (by omega)]
    refine ⟨front, b, by omega, .inl rfl, ?_⟩
    have hsize : (front.push b).size - 1 = front.size := by rw [Array.size_push, Nat.add_sub_cancel]
    rw [hsize]
    congr 1
    refine Array.ext_getElem? fun i => ?_
    rw [Array.getElem?_modify, Array.getElem?_push, Array.getElem?_push]
    by_cases hi : i = front.size
    · rw [if_pos hi.symm, if_pos hi, if_pos hi]
      rfl
    · rw [if_neg (Ne.symm hi), if_neg hi, if_neg hi]
  · refine ⟨blocks, Block.empty _, ?_, .inr ⟨rfl, rfl⟩, rfl⟩
    show 0 + value.utf8ByteSize <
      if config.oversized then max config.blockSize (value.utf8ByteSize + 1) else config.blockSize
    cases hover : config.oversized with
    | true =>
      rw [if_pos rfl]
      omega
    | false =>
      rw [if_neg Bool.false_ne_true]
      have hlt : value.utf8ByteSize < config.blockSize := by
        simpa [TableConfig.admits, hover, hempty] using hadmits
      omega

/-! ### The books of a column -/

/-- The deposits of a column lie apart from each other in its blocks, which
hold nothing else, and its cells have handles of deposits, no handle twice. -/
structure Books (c : Column) (deposits : List Deposit) : Prop where
  handles : c.handles.Subperm (deposits.map Deposit.handle)
  lies : ∀ d ∈ deposits, d.LiesIn c.blocks
  apart : deposits.Pairwise fun d e => d.handle.Apart e.handle
  used_le : ∀ b ∈ c.blocks.toList, b.used ≤ b.capacity
  used : (c.blocks.toList.map Block.used).sum = (deposits.map Deposit.size).sum

theorem books_empty : empty.Books [] where
  handles := List.nil_subperm
  lies := by simp
  apart := .nil
  used_le := by simp [empty]
  used := rfl

namespace Books

/-- A text more. -/
theorem add (h : c.Books deposits) (hadmits : config.admits value) (row : Nat) :
    (c.add config value row).Books (⟨value, (store config value c.blocks).1⟩ :: deposits) := by
  have hhandles := (handles_add c config value row).trans ((List.subperm_cons _).mpr h.handles)
  obtain ⟨blocks, cells⟩ := c
  by_cases hv : value = ""
  · subst hv
    refine ⟨hhandles, ?_, ?_, h.used_le, ?_⟩
    · rw [List.forall_mem_cons]
      exact ⟨rfl, h.lies⟩
    · exact List.pairwise_cons.mpr ⟨fun _ _ => trivial, h.apart⟩
    · rw [List.map_cons, List.sum_cons]
      exact h.used.trans (Nat.zero_add _).symm
  · obtain ⟨front, b, hroom, hopens, hstore⟩ := exists_open hv hadmits blocks
    have hblocks : (Column.add config value row ⟨blocks, cells⟩).blocks =
        front.push (b.push value) := congrArg Prod.snd hstore
    refine ⟨hhandles, ?_, ?_, ?_, ?_⟩
    · rw [hblocks, List.forall_mem_cons, Deposit.LiesIn, hstore]
      refine ⟨⟨hv, rfl, _, Array.getElem?_push_size, b.hasAt_push_self value⟩, fun d hd => ?_⟩
      exact hopens.liesIn_push (h.lies d hd) value
    · rw [List.pairwise_cons]
      dsimp only
      rw [hstore]
      exact ⟨fun d hd => hopens.apart (h.lies d hd) _, h.apart⟩
    · rw [hblocks, Array.toList_push, List.forall_mem_append, List.forall_mem_singleton]
      refine ⟨fun b' hb' => ?_, ?_⟩
      · refine h.used_le b' ?_
        rcases hopens with rfl | ⟨rfl, -⟩
        · rw [Array.toList_push]
          exact List.mem_append_left _ hb'
        · exact hb'
      · rw [Block.used_push]
        exact hroom
    · have hused : (blocks.toList.map Block.used).sum = _ := h.used
      rw [hopens.used] at hused
      rw [hblocks, Array.toList_push, List.map_append, List.sum_append, List.map_singleton,
        List.sum_singleton, Block.used_push, List.map_cons, List.sum_cons, Deposit.size, if_neg hv]
      dsimp only
      omega

/-- Cells that are moved, put in another order or dropped. -/
theorem of_handles (h : c.Books deposits) (hblocks : c'.blocks = c.blocks)
    (hhandles : c'.handles.Subperm c.handles) : c'.Books deposits where
  handles := hhandles.trans h.handles
  lies := hblocks ▸ h.lies
  apart := h.apart
  used_le := hblocks ▸ h.used_le
  used := hblocks ▸ h.used

/-- A handle is that of a deposit. -/
theorem exists_deposit (h : c.Books deposits) {cell : Nat × Handle} (hc : cell ∈ c.cells.toList) :
    ∃ d ∈ deposits, d.handle = cell.2 :=
  List.mem_map.mp (h.handles.subset (List.mem_map_of_mem hc))

end Books

/-! ### What that says of the cells -/

/-- What is true of a column that was given those deposits. -/
structure Keeps (c : Column) (deposits : List Deposit) : Prop where
  /-- A cell has the handle of a text that the column was given. -/
  deposited : ∀ cell ∈ c.cells.toList, ∃ d ∈ deposits, d.handle = cell.2
  /-- A handle that is not the empty one is on whole characters within what is
  in use of a block, with a NUL after them. -/
  stands : ∀ cell ∈ c.cells.toList, ∀ block offset length, cell.2 = .stored block offset length →
    0 < length ∧ ∃ b v, c.blocks[block]? = some b ∧ offset + length < b.used ∧
      b.get? offset length = some v ∧ b.get? (offset + length) 1 = some "\x00"
  /-- What the handles of two cells are on does not overlap. -/
  apart : c.cells.toList.Pairwise fun cell cell' => cell.2.Apart cell'.2
  used_le : ∀ b ∈ c.blocks.toList, b.used ≤ b.capacity
  storageSize : c.storageSize = (deposits.map Deposit.size).sum
  /-- The handle of a text that the column was given leads to it, whatever has
  become of its cell. -/
  resolves : ∀ d ∈ deposits, c.resolve d.handle = d.value

theorem Books.keeps (h : c.Books deposits) : c.Keeps deposits where
  deposited _ hc := h.exists_deposit hc
  stands cell hc block offset length hhandle := by
    obtain ⟨d, hd, heq⟩ := h.exists_deposit hc
    have hlies := h.lies d hd
    rw [Deposit.LiesIn, heq, hhandle] at hlies
    obtain ⟨hne, rfl, b, hb, hat⟩ := hlies
    have hpos : 0 < d.value.utf8ByteSize := by
      rw [Nat.pos_iff_ne_zero]
      exact mt String.utf8ByteSize_eq_zero_iff.mp hne
    exact ⟨hpos, b, d.value, hb, hat.lt_used, hat.get?, hat.get?_nul⟩
  apart := by
    obtain ⟨handles, hperm, hsub⟩ := h.handles
    have hdeposits : (deposits.map Deposit.handle).Pairwise Handle.Apart :=
      List.pairwise_map.mpr h.apart
    have hcells := (hperm.pairwise_iff Handle.Apart.symm).mp (hdeposits.sublist hsub)
    exact List.pairwise_map.mp hcells
  used_le := h.used_le
  storageSize := by
    rw [← h.used, Column.storageSize, ← Array.foldr_toList]
    generalize c.blocks.toList = blocks
    induction blocks with
    | nil => rfl
    | cons b blocks ih => rw [List.foldr_cons, List.map_cons, List.sum_cons, ih]
  resolves d hd := by
    have hlies := h.lies d hd
    rw [Deposit.LiesIn] at hlies
    cases hhandle : d.handle with
    | empty =>
      rw [hhandle] at hlies
      exact hlies.symm
    | stored block offset length =>
      rw [hhandle] at hlies
      obtain ⟨-, rfl, b, hb, hat⟩ := hlies
      exact resolve_eq ⟨b, hb, hat.get?⟩

end Column

end Tabular
