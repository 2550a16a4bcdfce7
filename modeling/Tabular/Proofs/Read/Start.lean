/-
How the read of a text in memory begins.

* `Encoding.resolve_size` — only a byte order mark is passed over;
* `Encoding.resolve_ascii` — ASCII is no byte order mark;
* `Reader.ofBytes_eq_ok` — the read begins, and the characters to come are
  those of the bytes after the mark.
-/
import Tabular.Proofs.Read.Cell

namespace Tabular

theorem ByteOrderMark.isPrefixOf_of_detect {head : List UInt8} {mark : ByteOrderMark}
    (h : detect head = some mark) : mark.bytes <+: head := by
  rw [detect] at h
  simpa using List.find?_some h

/-- No byte order mark is ASCII. -/
theorem ByteOrderMark.detect_ascii {head : List UInt8} (h : ∀ b ∈ head, b.toNat < 0x80) :
    detect head = none := by
  cases hd : detect head with
  | none => rfl
  | some mark =>
    have hprefixed := isPrefixOf_of_detect hd
    have habove : ∃ b ∈ mark.bytes, ¬ b.toNat < 0x80 := by
      cases mark <;> decide
    obtain ⟨b, hb, hge⟩ := habove
    exact absurd (h b (hprefixed.subset hb)) hge

theorem Encoding.resolve_ascii (asked : Encoding) {head : List UInt8}
    (h : ∀ b ∈ head, b.toNat < 0x80) :
    asked.resolve head = (if asked = .unknown then .utf8 else asked, 0) := by
  cases asked <;> simp [resolve, ByteOrderMark.detect_ascii h]

/-- What is passed over is a byte order mark, or nothing. -/
theorem Encoding.resolve_size (asked : Encoding) (head : List UInt8) :
    (asked.resolve head).2 = 0 ∨
      ∃ mark : ByteOrderMark, (asked.resolve head).2 = mark.size ∧ mark.bytes <+: head := by
  cases h : ByteOrderMark.detect head with
  | none => exact .inl (by cases asked <;> simp [resolve, h])
  | some mark =>
    have hprefix := ByteOrderMark.isPrefixOf_of_detect h
    cases asked with
    | unknown => exact .inr ⟨mark, by simp [resolve, h], hprefix⟩
    | _ =>
      simp only [resolve, h]
      split
      · exact .inr ⟨mark, rfl, hprefix⟩
      · exact .inl rfl

theorem Encoding.resolve_size_le (asked : Encoding) (head : List UInt8) :
    (asked.resolve head).2 ≤ head.length := by
  rcases asked.resolve_size head with h | ⟨mark, h, hprefix⟩
  · exact h ▸ Nat.zero_le _
  · exact h ▸ hprefix.length_le

/-- The mark at the head of a text is no longer than the text. -/
theorem Encoding.start_le_of_resolve {asked e : Encoding} {bytes : List UInt8} {start : Nat}
    (hr : asked.resolve (bytes.take 4) = (e, start)) : start ≤ bytes.length := by
  have hle := asked.resolve_size_le (bytes.take 4)
  rw [hr, List.length_take] at hle
  exact Nat.le_trans hle (Nat.min_le_right ..)

/-- A text in memory holds the units after what is passed over. -/
theorem Units.holds_advance {bytes : List UInt8} {e : Encoding} {start : Nat} {units : List Nat}
    (hle : start ≤ bytes.length) (hg : e.Groups (bytes.drop start) units) :
    (ofSource ((Source.ofBytes bytes).advance start (bytes.drop start)) e).Holds bytes.length
      units := by
  refine ⟨rfl, ⟨units, hg, rfl⟩, ?_, by simp [ofSource]⟩
  simp only [ofSource, Source.advance, Source.ofBytes, List.length_drop]
  omega

namespace Reader

/-- A reader that has read nothing yet. -/
def fresh (chars : Chars) (f : Format) (o : ReadOptions) (bytes : List UInt8) : Reader where
  chars := chars
  dialect := f.toDialect
  strategy := o.strategy.getD .decode
  buffer := .empty
  viewed := bytes
  phase := .seeking
  progress := 0
  accounted := 0
  handed := []

/-- A text in memory can be read if the strategy can serve the format.  What
there is to read comes after the byte order mark. -/
theorem ofBytes_eq {bytes : List UInt8} {f : Format} {e : Encoding} {start : Nat}
    (o : ReadOptions) (hr : f.encoding.resolve (bytes.take 4) = (e, start)) :
    ofBytes bytes f o = ((o.strategy.getD .decode).check f e true).map fun _ =>
      fresh ⟨.ofSource ((Source.ofBytes bytes).advance start (bytes.drop start)) e, none⟩ f o
        bytes := by
  have hskip : (Source.ofBytes bytes).skip start =
      .ok () ((Source.ofBytes bytes).advance start (bytes.drop start)) := by
    have := Source.skip_append (s := .ofBytes bytes) (List.take_append_drop start bytes).symm
    rwa [List.length_take, Nat.min_eq_left (Encoding.start_le_of_resolve hr)] at this
  rw [ofBytes, Reader.start, Source.peek_ofBytes]
  dsimp only
  rw [hr]
  dsimp only
  rw [hskip]
  dsimp only
  rw [Option.isSome_some]
  cases (o.strategy.getD .decode).check f e true <;> rfl

/-- What is read of a text in a known dialect are its logical characters. -/
theorem ofBytes_eq_ok {bytes : List UInt8} {f : Format} {o : ReadOptions} {e : Encoding}
    {start : Nat} {units : List Nat} (hr : f.encoding.resolve (bytes.take 4) = (e, start))
    (hs : (o.strategy.getD .decode).check f e true = .ok ()) (hf : f.toDialect.Settled)
    (hg : e.Groups (bytes.drop start) units) :
    ∃ chars, ofBytes bytes f o = .ok (fresh chars f o bytes) ∧
      (fresh chars f o bytes).Reads e bytes.length
        (logical f.folds ((o.strategy.getD .decode).scanned e bytes.length units)) := by
  have hholds := Units.holds_advance (Encoding.start_le_of_resolve hr) hg
  refine ⟨⟨.ofSource ((Source.ofBytes bytes).advance start (bytes.drop start)) e, none⟩, ?_, ?_⟩
  · rw [ofBytes_eq o hr, hs]
    rfl
  · exact ⟨hf, rfl, _, Chars.holds_ofUnits hholds, rfl⟩

end Reader

end Tabular
