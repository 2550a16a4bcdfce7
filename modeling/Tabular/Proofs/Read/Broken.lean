/-
Where the two readers of a text part.

* `Lossy.Behind` — what both readers hold, and by how many U+FFFD the reader of
  characters may still come to have more;
* `Lossy.Behind.advance` — that never grows by more than the reader of runs has
  gained, and it has gained one where a lead byte is broken;
* `Lossy.count_decode_lt` — so over a whole run it has more of them;
* `Units.decodeAll_eq_decodeBytes_iff` — the two texts of the same bytes.

Design notes: at a broken lead byte one reader begins anew and the other goes
on with a sequence that is no character.  From there on all that they have in
common is a count.  What is unfinished takes in continuation bytes, of each of
which the other reader makes a U+FFFD, and comes to one itself at the most, so
the count need not say that it will.
-/
import Tabular.Proofs.Read.Decoded
import Tabular.Proofs.Text.WholeRun

namespace Tabular

namespace Lossy

variable {last byte slack : Nat} {b : Option Utf8Beginning} {v : Option Unfinished}

/-- What both readers hold after the byte `last`.  What is still unfinished may
come to `slack` more U+FFFD in the reader of characters. -/
inductive Behind (last : Nat) :
    (slack : Nat) → Option Utf8Beginning → Option Unfinished → Prop
  | inStep {b : Option Utf8Beginning} {v : Option Unfinished} (h : InStep last b v)
      -- A lead byte has just begun its sequence.
      (lead : 0xC0 ≤ last →
        b = (start last).2 ∧ v = (Decode.emit (Decode.startUtf8 last)).2) :
    Behind last 0 b v
  /-- The reader of characters takes in what the other has given up. -/
  | swallowing (hlast : last < 0xC0) (more code least : Nat) :
    Behind last 1 none (some (.utf8 more code least))

theorem start_continuation (hge : 0x80 ≤ byte) (hle : byte ≤ 0xBF) :
    start byte = ([replacement], none) := by
  rw [start, if_neg (by omega), if_neg (by omega), if_neg (by omega), if_neg (by omega)]

theorem feed_of_not_continuation (hb : byte < 256) (h : ¬ (0x80 ≤ byte ∧ byte ≤ 0xBF))
    (more code least : Nat) : (Unfinished.utf8 more code least).feed byte = none := by
  rw [Unfinished.feed, if_neg]
  rwa [isContinuation_iff hb]

/-- A lead byte begins its sequence, whatever has begun before. -/
theorem InStep.advance_lead (h : InStep last b v) (hb : byte < 256) (hlead : 0xC0 ≤ byte) :
    (advance byte b).2 = (start byte).2 ∧
      (Decode.advance .utf8 byte v).2 = (Decode.emit (Decode.startUtf8 byte)).2 := by
  cases h with
  | between => exact ⟨rfl, rfl⟩
  | @within b least low high =>
    rw [advance, if_neg (by omega), Decode.advance, feed_of_not_continuation hb (by omega)]
    exact ⟨rfl, rfl⟩

theorem BreaksLead.continuation (h : BreaksLead last byte) : 0x80 ≤ byte ∧ byte ≤ 0xBF := by
  unfold BreaksLead at h
  omega

/-- A lead byte that is broken asks for another byte, and for more than one. -/
theorem BreaksLead.start (h : BreaksLead last byte) :
    ∃ b more least, (start last).2 = some b ∧ ¬ (b.low ≤ byte ∧ byte ≤ b.high) ∧
      Decode.startUtf8 last = .more (.utf8 (more + 1) b.code least) := by
  rcases h with ⟨rfl, h⟩ | ⟨rfl, h⟩ | ⟨rfl, h⟩ | ⟨rfl, h⟩
  · exact ⟨⟨0xA0, 0xBF, 1, 0⟩, 0, 0x800, rfl, by dsimp only; omega, rfl⟩
  · exact ⟨⟨0x80, 0x9F, 1, 13⟩, 0, 0x800, rfl, by dsimp only; omega, rfl⟩
  · exact ⟨⟨0x90, 0xBF, 2, 0⟩, 1, 0x10000, rfl, by dsimp only; omega, rfl⟩
  · exact ⟨⟨0x80, 0x8F, 2, 4⟩, 1, 0x10000, rfl, by dsimp only; omega, rfl⟩

/-- Where a lead byte is broken, one reader gives up both bytes, and the other
goes on. -/
theorem BreaksLead.advance (h : BreaksLead last byte) :
    advance byte (Lossy.start last).2 = ([replacement, replacement], none) ∧
    ∃ more code least, Decode.advance .utf8 byte (Decode.emit (Decode.startUtf8 last)).2 =
      ([], some (.utf8 more code least)) := by
  obtain ⟨hge, hle⟩ := h.continuation
  obtain ⟨b, more, least, hb, hout, hv⟩ := h.start
  have hcont : Decode.isContinuation byte := (isContinuation_iff (by omega)).mpr ⟨hge, hle⟩
  constructor
  · rw [hb, Lossy.advance, if_neg hout, start_continuation hge hle]
  · refine ⟨more, b.code * 64 + byte % 64, least, ?_⟩
    rw [hv, Decode.emit, Decode.advance, Unfinished.feed, if_pos hcont]
    rfl

namespace Behind

/-- A byte makes the difference no greater than what the reader of runs has
gained by it, and where it breaks a lead byte less. -/
theorem advance (h : Behind last slack b v) (hb : byte < 256) :
    ∃ slack', Behind byte slack' (advance byte b).2 (Decode.advance .utf8 byte v).2 ∧
      (Decode.advance .utf8 byte v).1.count replacement + slack' +
          (if BreaksLead last byte then 1 else 0) ≤
        (Lossy.advance byte b).1.count replacement + slack := by
  cases h with
  | inStep h lead =>
    by_cases hbreaks : BreaksLead last byte
    · have hlast : 0xC0 ≤ last := by
        unfold BreaksLead at hbreaks
        omega
      obtain ⟨rfl, rfl⟩ := lead hlast
      obtain ⟨hle, more, code, least, hadvance⟩ := hbreaks.advance
      have hbyte := hbreaks.continuation.2
      rw [hle, hadvance, if_pos hbreaks]
      exact ⟨1, .swallowing (by omega) more code least, Nat.le_refl _⟩
    · obtain ⟨hchars, hstep⟩ := advance_inStep hb h hbreaks
      refine ⟨0, .inStep hstep (h.advance_lead hb), ?_⟩
      rw [hchars, if_neg hbreaks]
  | swallowing hlast more code least =>
    have hbreaks : ¬ BreaksLead last byte := by
      unfold BreaksLead
      omega
    rw [if_neg hbreaks]
    by_cases hcont : 0x80 ≤ byte ∧ byte ≤ 0xBF
    · have hfeed : Decode.isContinuation byte := (isContinuation_iff hb).mpr hcont
      rw [Lossy.advance, start_continuation hcont.1 hcont.2]
      cases more with
      | zero =>
        obtain ⟨c, hadvance⟩ : ∃ c, Decode.advance .utf8 byte (some (.utf8 0 code least)) =
            ([c], none) := by
          rw [Decode.advance, Unfinished.feed, if_pos hfeed]
          exact ⟨_, rfl⟩
        have hone : [c].count replacement ≤ 1 := List.count_le_length
        rw [hadvance]
        exact ⟨0, .inStep .between fun hlead => absurd hlead (by omega),
          Nat.le_trans hone (Nat.le_add_left ..)⟩
      | succ more =>
        have hadvance : Decode.advance .utf8 byte (some (.utf8 (more + 1) code least)) =
            ([], some (.utf8 more (code * 64 + byte % 64) least)) := by
          rw [Decode.advance, Unfinished.feed, if_pos hfeed]
          rfl
        rw [hadvance]
        exact ⟨1, .swallowing (by omega) _ _ _, Nat.le_succ 1⟩
    · -- Both readers begin anew.
      have hstart : (start byte).1 = (Decode.emit (Decode.startUtf8 byte)).1 := start_inStep.1
      rw [Lossy.advance, Decode.advance, feed_of_not_continuation hb hcont]
      refine ⟨0, .inStep start_inStep.2 fun _ => ⟨rfl, rfl⟩, ?_⟩
      rw [hstart, List.count_cons_self]
      exact Nat.le_refl _

/-- Over a whole run the reader of characters comes to no more of them, and to
fewer where a lead byte is broken. -/
theorem count_le (h : Behind last slack b v) (bytes : List UInt8) :
    (Decode.decodeFrom .utf8 v (bytes.map UInt8.toNat)).count replacement ≤
      (utf8From b bytes).count replacement + slack := by
  induction bytes generalizing last slack b v with
  | nil =>
    cases h with
    | inStep h => cases h <;> exact Nat.le_refl _
    | swallowing => exact Nat.le_refl _
  | cons byte bytes ih =>
    obtain ⟨slack', hstep, hle⟩ := h.advance byte.toNat_lt
    have hrest := ih hstep
    rw [List.map_cons, Decode.decodeFrom, utf8From, List.count_append, List.count_append]
    omega

theorem count_lt (h : Behind last slack b v) {bytes : List UInt8}
    (hbroken : (∃ byte ∈ bytes.head?, BreaksLead last byte.toNat) ∨ ¬ NoBrokenLead bytes) :
    (Decode.decodeFrom .utf8 v (bytes.map UInt8.toNat)).count replacement <
      (utf8From b bytes).count replacement + slack := by
  induction bytes generalizing last slack b v with
  | nil => simp [NoBrokenLead] at hbroken
  | cons byte bytes ih =>
    obtain ⟨slack', hstep, hle⟩ := h.advance byte.toNat_lt
    rw [List.map_cons, Decode.decodeFrom, utf8From, List.count_append, List.count_append]
    by_cases hbreaks : BreaksLead last byte.toNat
    · have hrest := hstep.count_le bytes
      rw [if_pos hbreaks] at hle
      omega
    · have hmore : (∃ next ∈ bytes.head?, BreaksLead byte.toNat next.toNat) ∨
          ¬ NoBrokenLead bytes := by
        rcases hbroken with ⟨next, hnext, hlead⟩ | hchain
        · obtain rfl := Option.some.inj hnext
          exact absurd hlead hbreaks
        · rw [NoBrokenLead, List.isChain_cons, not_and_or] at hchain
          refine hchain.imp_left fun hhead => ?_
          simpa using hhead
      have hrest := ih hstep hmore
      omega

end Behind

/-- Where a lead byte is broken, the text of the whole has more U+FFFD than the
text of its characters. -/
theorem count_decode_lt {bytes : List UInt8} (h : ¬ NoBrokenLead bytes) :
    (Encoding.utf8.decode (bytes.map UInt8.toNat)).count replacement <
      (utf8From none bytes).count replacement := by
  have hbehind : Behind 0 0 none none := .inStep .between fun hlead => absurd hlead (by decide)
  exact hbehind.count_lt (.inr h)

end Lossy

/-- The text of a run of bytes taken as a whole and the text that its
characters are decoded as: in the code pages they are the same, and in UTF-8
they are if no lead byte is broken.  If one is, the whole has more U+FFFD. -/
theorem Units.decodeAll_eq_decodeBytes_iff {source : Source} {bytes : List UInt8} {position : Nat}
    (e : Encoding) (h : source.Yields bytes position) :
    ∃ decoded u, (ofSource source e).decodeAll = .ok decoded u ∧
      (e = .latin1 ∨ e = .windows1252 → e.decodeBytes bytes = decoded) ∧
      (e = .utf8 ∨ e = .unknown →
        (e.decodeBytes bytes = decoded ↔ Lossy.NoBrokenLead bytes) ∧
        (¬ Lossy.NoBrokenLead bytes →
          decoded.count replacement < (e.decodeBytes bytes).count replacement)) := by
  obtain ⟨u, hall, -⟩ := (brings_ofSource e h).decodeAll
  refine ⟨_, u, hall, fun he => ?_, fun he => ?_⟩
  · have hsingle : e.isSingleByte := by rcases he with rfl | rfl <;> rfl
    show e.decodeBytes bytes = e.decode (e.unitsOf bytes)
    rw [Encoding.unitsOf_eq_map hsingle]
    exact Encoding.decodeBytes_eq_decode hsingle (or_assoc.mp (.inl he))
  · have hsingle : e.isSingleByte := by rcases he with rfl | rfl <;> rfl
    have hlossy : e.decodeBytes bytes = Lossy.utf8From none bytes := by
      rcases he with rfl | rfl <;> rfl
    have hdecoded : e.decode (e.unitsOf bytes) = Encoding.utf8.decode (bytes.map UInt8.toNat) := by
      rw [Encoding.unitsOf_eq_map hsingle]
      rcases he with rfl | rfl
      · rfl
      · exact decodeFrom_unknown none _
    show (e.decodeBytes bytes = e.decode (e.unitsOf bytes) ↔ _) ∧ (_ →
      (e.decode (e.unitsOf bytes)).count replacement < _)
    rw [hlossy, hdecoded]
    refine ⟨⟨fun heq => ?_, Lossy.utf8From_eq_decode⟩, Lossy.count_decode_lt⟩
    by_contra hbroken
    have hlt := Lossy.count_decode_lt hbroken
    rw [heq] at hlt
    exact Nat.lt_irrefl _ hlt

/-- A surrogate is three U+FFFD in one text and one in the other. -/
theorem Units.decodeAll_eq_decodeBytes_iff_surrogate :
    let feed : Feed := ⟨[0x61, 0xED, 0xA0, 0x80], [.upTo 2, .interrupted, .upTo 1]⟩
    (∀ d ∈ feed.script, d.Steady) ∧ ¬ Lossy.NoBrokenLead feed.bytes ∧
      ∃ decoded u, (ofSource (.ofFeed feed 8) .utf8).decodeAll = .ok decoded u ∧
        decoded.count replacement < 3 := by
  intro feed
  have hsteady : ∀ d ∈ feed.script, d.Steady := by simp [feed, Delivery.Steady]
  have hbroken : ¬ Lossy.NoBrokenLead feed.bytes := by decide
  obtain ⟨decoded, u, hall, -, hutf8⟩ :=
    decodeAll_eq_decodeBytes_iff .utf8 (Source.yields_ofFeed hsteady 8)
  exact ⟨hsteady, hbroken, decoded, u, hall, (hutf8 (.inl rfl)).2 hbroken⟩

end Tabular
