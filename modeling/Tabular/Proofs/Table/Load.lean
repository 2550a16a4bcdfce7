/-
A text loaded in chunks.

* `Table.loadBytes_eq_split` — what comes of a text that is not shared out;
* `Table.loadShared_of_sharesOut` — and of one that is, if the workers can be
  had;
* `exists_sharesOut` — some text is, if there are two workers;
* `Table.loadShared_agree` — a text shared out among workers.

Design notes: chunks are cut after line ends.  If the same byte ends lines and
cells, it is a separator and no row ends there; each chunk is then a row of
its own, and the whole text is but one.
-/
import Tabular.Proofs.Read.Whole
import Tabular.Proofs.Table.Parts

namespace Tabular

/-- What comes of a text of which all chunks have been put together. -/
def Merged.loaded (m : Merged) (f : Format) (e : Encoding) (progress : Nat) : Loaded where
  table := m.table
  result := .ok (f.splitSummary e m.rows m.bytesRead false, m.refused)
  progress

namespace Table

variable {d : Bytewise.Ends} {e : Encoding}

variable {f : Format} {o : ReadOptions} {bytes : List UInt8} {start : Nat}

/-- What comes of a text that is split as bytes, but not shared out. -/
theorem loadBytes_eq_split (hd : f.byteEnds? = some d)
    (hr : f.encoding.resolve (bytes.take 4) = (e, start)) (ho : o.allowBytewise)
    (hs : f.splitsBytes e) (t : Table) :
    let r := Bytewise.split d e .always ⟨0, 0, start⟩ .handing [] .zero (bytes.drop start)
    let s := t.store 0 r.handed.reverse
    t.loadBytes bytes f o = Merged.loaded ⟨s.1, r.rows, r.bytesRead, s.2⟩ f e bytes.length := by
  intro r s
  have hle := Encoding.start_le_of_resolve hr
  have hrun : Bytewise.run d e .always start bytes = r := by
    rw [Bytewise.run, Nat.min_eq_left hle]
  have hstopped : r.stopped = false := Bytewise.split_stopped_always ..
  have hprogress : r.progress = bytes.length := by
    obtain ⟨rows, found, h, -⟩ := Bytewise.exists_finds d e (bytes.drop start) 0
    obtain ⟨-, hread, -⟩ := h.split_eq 0 start [] .zero
    rw [Bytewise.split_progress _ Bytewise.Tally.covers_zero, hread, List.length_drop,
      Nat.add_sub_cancel' hle]
  rw [loadBytes, readBytes_eq_split hr ho hs, Format.splitBytes, hd]
  dsimp only
  rw [hrun, load, hstopped, hprogress]
  rfl

end Table

/-- Whether a text is shared out among workers. -/
def ReadOptions.sharesOut (o : ReadOptions) (f : Format) (bytes : List UInt8) : Bool :=
  let (e, start) := f.encoding.resolve (bytes.take 4)
  match f.byteEnds? with
  | none => false
  | some d =>
    o.allowBytewise && f.splitsBytes e && 1 < o.workers &&
      2 < (splitPoints bytes start d.lineEnd o.workers o.minimumChunk).length

namespace Table

variable {f : Format} {o : ReadOptions} {bytes : List UInt8} {pool : Pool}

theorem loadShared_of_not_sharesOut (hworkers : 1 ≤ o.workers) (h : o.sharesOut f bytes = false)
    (pool : Pool) (t : Table) : t.loadShared pool bytes f o = t.loadBytes bytes f o := by
  rw [ReadOptions.sharesOut] at h
  rw [loadShared, if_neg (Nat.ne_of_gt hworkers)]
  dsimp only at h ⊢
  cases hd : f.byteEnds? with
  | none => rfl
  | some d =>
    rw [hd] at h
    dsimp only at h ⊢
    rw [if_neg (by simp [h])]

/-- What comes of a text that is shared out: an error, if the workers cannot be
had, and else the chunks, of which there are two at least. -/
theorem loadShared_of_sharesOut (hworkers : 1 ≤ o.workers) (h : o.sharesOut f bytes)
    (hpool : pool.Orderly) (t : Table) :
    ∃ d e start piece pieces rest, f.byteEnds? = some d ∧
      f.encoding.resolve (bytes.take 4) = (e, start) ∧ o.allowBytewise ∧ f.splitsBytes e ∧
      bytes.drop start = piece ++ d.lineEnd :: rest ∧ Pieces d.lineEnd pieces rest ∧
      t.loadShared pool bytes f o =
        match pool.obstacle? o.workers with
        | some reason => ⟨t, .error (.noPool reason), start⟩
        | none =>
          ((((piece ++ [d.lineEnd]) :: pieces).map (Part.load d e t.config)).foldl Merged.append
            ⟨t, 0, start, 0⟩).loaded f e bytes.length := by
  rw [ReadOptions.sharesOut] at h
  rw [loadShared, if_neg (Nat.ne_of_gt hworkers)]
  generalize hr : f.encoding.resolve (bytes.take 4) = resolved at h ⊢
  obtain ⟨e, start⟩ := resolved
  have hle := Encoding.start_le_of_resolve hr
  dsimp only at h ⊢
  cases hd : f.byteEnds? with
  | none =>
    rw [hd] at h
    exact absurd h Bool.false_ne_true
  | some d =>
    rw [hd] at h
    dsimp only at h ⊢
    rw [if_pos h]
    simp only [Bool.and_eq_true, decide_eq_true_eq] at h
    obtain ⟨⟨⟨ho, hs⟩, -⟩, hpoints⟩ := h
    obtain ⟨piece, pieces, rest, hchunks, hdrop, hpieces⟩ := pieces_splitPoints hle hpoints
    refine ⟨d, e, start, piece, pieces, rest, rfl, rfl, ho, hs, hdrop, hpieces, ?_⟩
    have htotal : start + ((piece ++ [d.lineEnd]) :: pieces).flatten.length = bytes.length := by
      rw [(Pieces.cons piece hpieces).flatten_eq, ← hdrop, List.length_drop,
        Nat.add_sub_cancel' hle]
    rw [hchunks, hpool.collect_finish, hpool.foldl_progress, htotal]
    rfl

/-- Any two workers at least get to share some text that consists of line ends
only. -/
theorem exists_sharesOut (ho : o.allowBytewise) (hs : f.splitsBytes f.encoding)
    (hworkers : 1 < o.workers) : ∃ bytes, o.sharesOut f bytes := by
  obtain ⟨d, hd, hserves, he⟩ := Format.exists_serves hs
  refine ⟨List.replicate (o.minimumChunk + 4) d.lineEnd, ?_⟩
  have hascii : ∀ b ∈ (List.replicate (o.minimumChunk + 4) d.lineEnd).take 4, b.toNat < 0x80 := by
    intro b hb
    rw [List.eq_of_mem_replicate (List.mem_of_mem_take hb)]
    exact hserves.lineEnd_lt
  have hresolve := f.encoding.resolve_ascii hascii
  have hsplits : f.splitsBytes (if f.encoding = .unknown then .utf8 else f.encoding) := by
    split
    · simp only [Format.splitsBytes, Bool.and_eq_true] at hs ⊢
      exact ⟨hs.1, rfl⟩
    · exact hs
  have hcut : 2 < (splitPoints (List.replicate (o.minimumChunk + 4) d.lineEnd) 0 d.lineEnd o.workers
      o.minimumChunk).length := by
    rw [two_lt_length_splitPoints (Nat.zero_le _), List.drop_zero, List.length_replicate,
      Nat.sub_zero, cutsFrom, List.drop_replicate]
    -- A chunk is at most half of the text, or the minimum, so the text goes on after it.
    have hdiv : (o.minimumChunk + 4) / o.workers ≤ (o.minimumChunk + 4) / 2 :=
      Nat.div_le_div_left hworkers (by decide)
    obtain ⟨n, hn⟩ : ∃ n, o.minimumChunk + 4 -
        max (max ((o.minimumChunk + 4) / o.workers) o.minimumChunk) 1 = n + 2 :=
      ⟨_, (Nat.sub_add_cancel (by omega)).symm⟩
    rw [hn, List.replicate_succ, List.replicate_succ]
    split
    · rename_i h
      simp at h
    · rename_i h
      simp at h
    · exact List.cons_ne_nil _ _
  rw [ReadOptions.sharesOut, hresolve, hd]
  simp [ho, hsplits, hworkers, hcut]

/-- Loading a text in chunks comes to the same as loading it at once: to the
same table, with the same to say about it, and the same bytes accounted for, in
whatever order the workers finish.  Only if the same character separates cells
and ends lines can it be otherwise, and then it is whenever a text is shared
out, which some text is: each chunk is then a row, while the whole text is but
one.  If the workers cannot be had the table is as it was, and only the byte
order mark is accounted for. -/
theorem loadShared_agree (pool : Pool) (hpool : pool.Orderly) (f : Format) (o : ReadOptions)
    (hworkers : 1 ≤ o.workers) :
    (∀ (t : Table) (bytes : List UInt8), bytes.length ≤ lastRow →
      (o.sharesOut f bytes → pool.obstacle? o.workers = none) →
      ¬ (o.sharesOut f bytes ∧ f.separator = f.lineEnd) →
        t.loadShared pool bytes f o = t.loadBytes bytes f o) ∧
    (∀ (t : Table) (bytes : List UInt8), o.sharesOut f bytes →
      pool.obstacle? o.workers = none → f.separator = f.lineEnd →
      ∃ shared whole, (t.loadShared pool bytes f o).result = .ok shared ∧
        (t.loadBytes bytes f o).result = .ok whole ∧ whole.1.rows = 1 ∧ 1 < shared.1.rows) ∧
    (o.allowBytewise → f.splitsBytes f.encoding → 1 < o.workers → f.separator = f.lineEnd →
      ∃ bytes, o.sharesOut f bytes) ∧
    (∀ (t : Table) (bytes : List UInt8) (reason : String), o.sharesOut f bytes →
      pool.obstacle? o.workers = some reason →
        t.loadShared pool bytes f o =
          ⟨t, .error (.noPool reason), (f.encoding.resolve (bytes.take 4)).2⟩) := by
  refine ⟨?_, ?_, fun ho hs h _ => exists_sharesOut ho hs h, ?_⟩
  · intro t bytes hsize hhad hne
    cases hshares : o.sharesOut f bytes with
    | false => exact loadShared_of_not_sharesOut hworkers hshares pool t
    | true =>
      obtain ⟨d, e, start, piece, pieces, rest, hd, hr, ho, hs, hdrop, hpieces, hload⟩ :=
        loadShared_of_sharesOut hworkers hshares hpool t
      -- The text is shared out, so the separator ends no line.
      have hends : d.separator ≠ d.lineEnd :=
        fun heq => hne ⟨hshares, (Format.separator_eq_lineEnd_iff hd hs).mpr heq⟩
      have hlength : (bytes.drop start).length ≤ lastRow :=
        (List.drop_sublist start bytes).length_le.trans hsize
      have hmerged := Merged.foldl_append_load (e := e) hends (.cons piece hpieces)
        ⟨t, 0, start, 0⟩ .zero (by rwa [Nat.zero_add, ← hdrop])
      rw [hload, hhad hshares, loadBytes_eq_split hd hr ho hs]
      obtain ⟨rows, found, hfinds, -⟩ := Bytewise.exists_finds d e (bytes.drop start) 0
      dsimp only at hmerged ⊢
      rw [hmerged, ← hdrop, hfinds.reverse_handed, hfinds.store_eq hlength, Nat.zero_add]
  · intro t bytes hshares hhad heq
    obtain ⟨d, e, start, piece, pieces, rest, hd, hr, ho, hs, hdrop, hpieces, hload⟩ :=
      loadShared_of_sharesOut hworkers hshares hpool t
    have hends := (Format.separator_eq_lineEnd_iff hd hs).mp heq
    rw [hload, hhad, loadBytes_eq_split hd hr ho hs]
    refine ⟨_, _, rfl, rfl, ?_, ?_⟩
    · -- Not shared, every line end separates cells of the one row.
      refine Bytewise.split_rows_of_eq hends fun hnil => ?_
      rw [hdrop] at hnil
      simp at hnil
    · -- Shared, each chunk is a row.
      refine lt_of_lt_of_eq ?_ (Merged.rows_foldl_append_load hends
        (Pieces.cons piece hpieces).ne_nil.2 t.config ⟨t, 0, start, 0⟩).symm
      rw [Nat.zero_add, List.length_cons]
      have := List.length_pos_iff.mpr hpieces.ne_nil.1
      omega
  · intro t bytes reason hshares hreason
    obtain ⟨d, e, start, piece, pieces, rest, -, hr, -, -, -, -, hload⟩ :=
      loadShared_of_sharesOut hworkers hshares hpool t
    rw [hload, hreason, hr]

/-- Three lines shared by two workers of which the second is the first to
finish, and a text of two rows or more, where line ends separate cells, that is
but one row if it is not shared. -/
theorem loadShared_agree_lines :
    let o : ReadOptions := { workers := 2, minimumChunk := 1 }
    let pool : Pool := { Pool.inTurn with finish := List.reverse }
    1 ≤ o.workers ∧ pool.Orderly ∧ o.sharesOut .bare [97, 44, 98, 10, 10, 99] ∧
      (∀ t : Table, t.loadShared pool [97, 44, 98, 10, 10, 99] .bare o =
        t.loadBytes [97, 44, 98, 10, 10, 99] .bare o) ∧
      ∃ bytes, ∀ t : Table, ∃ shared whole,
        (t.loadShared pool bytes (.fixed '\n' none '\n') o).result = .ok shared ∧
          (t.loadBytes bytes (.fixed '\n' none '\n') o).result = .ok whole ∧
          whole.1.rows = 1 ∧ 1 < shared.1.rows := by
  intro o pool
  have hpool : pool.Orderly := Pool.orderly_of_finish List.reverse_perm
  obtain ⟨hagree, -, -, -⟩ := loadShared_agree pool hpool .bare o (by decide)
  obtain ⟨-, hdiffer, hexists, -⟩ :=
    loadShared_agree pool hpool (.fixed '\n' none '\n') o (by decide)
  obtain ⟨bytes, hshares⟩ := hexists rfl rfl (by decide) rfl
  refine ⟨by decide, hpool, by decide +kernel, fun t => ?_, bytes, fun t => ?_⟩
  · exact hagree t _ (by decide) (fun _ => rfl) fun h => absurd h.2 (by decide)
  · exact hdiffer t bytes hshares rfl rfl

end Table

end Tabular
