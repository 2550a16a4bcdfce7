/-
Streams whose failures are left out.

* `Feed.mended`, `Source.mended` — a feed without its failures, and a source of
  it;
* `Source.next_mended`, …, `Source.skip_mended` — what succeeds goes just the
  same without them;
* `Units.mended`, `Chars.mended` — and so it does for units and characters.

Design notes: failures that are left out can make up for nothing that is read
before them, so it is successes that carry over, from the stream as it is to
the one that is mended.
-/
import Tabular.Read.Chars
import Tabular.Proofs.Input.Steady

namespace Tabular

/-- Whether a delivery is a failure. -/
def Delivery.fails : Delivery → Bool
  | .failed _ => true
  | .upTo _ | .interrupted => false

/-- The deliveries without the failures. -/
def Delivery.mend (script : List Delivery) : List Delivery := script.filter fun d => !d.fails

/-- The feed without its failures. -/
def Feed.mended (feed : Feed) : Feed := { feed with script := Delivery.mend feed.script }

theorem Feed.request_mended {room : Nat} {bytes got : List UInt8} {script : List Delivery}
    {feed : Feed} (h : request room bytes script = .ok got feed) :
    request room bytes (Delivery.mend script) = .ok got feed.mended := by
  induction script with
  | nil =>
    obtain ⟨rfl, rfl⟩ := EStateM.Result.ok.inj h
    rfl
  | cons d script ih =>
    cases d with
    | upTo count =>
      obtain ⟨rfl, rfl⟩ := EStateM.Result.ok.inj h
      rfl
    | interrupted => exact ih h
    | failed reason => simp [request] at h

namespace Source

variable {s t : Source} {n : Nat}

/-- The source without the failures of its feed. -/
def mended (s : Source) : Source := { s with feed := s.feed.mended }

theorem next_mended {b : Option UInt8} (h : s.next = .ok b t) : s.mended.next = .ok b t.mended := by
  rw [next] at h ⊢
  rw [show s.mended.unread = s.unread from rfl]
  cases hu : s.unread with
  | cons b unread =>
    rw [hu] at h
    obtain ⟨rfl, rfl⟩ := EStateM.Result.ok.inj h
    rfl
  | nil =>
    rw [hu] at h
    dsimp only at h ⊢
    cases hr : Feed.request s.capacity s.feed.bytes s.feed.script with
    | error e feed => simp [hr] at h
    | ok got feed =>
      have hmended : Feed.request s.mended.capacity s.mended.feed.bytes s.mended.feed.script =
          .ok got feed.mended := Feed.request_mended hr
      rw [hr] at h
      rw [hmended]
      cases got with
      | nil | cons =>
        obtain ⟨rfl, rfl⟩ := EStateM.Result.ok.inj h
        rfl

theorem fill_mended {script : List Delivery} (h : fill n script s = .ok () t) :
    fill n (Delivery.mend script) s.mended = .ok () t.mended := by
  induction script generalizing s with
  | nil =>
    rw [fill] at h
    show fill n [] s.mended = _
    rw [fill, show s.mended.unread = s.unread from rfl]
    split at h
    · rename_i hle
      obtain ⟨-, rfl⟩ := EStateM.Result.ok.inj h
      rw [if_pos hle]
    · rename_i hlt
      obtain ⟨-, rfl⟩ := EStateM.Result.ok.inj h
      rw [if_neg hlt]
      rfl
  | cons d script ih =>
    by_cases hle : n ≤ s.unread.length
    · rw [fill_of_le hle] at h
      obtain ⟨-, rfl⟩ := EStateM.Result.ok.inj h
      exact fill_of_le (show n ≤ s.mended.unread.length from hle) _
    · cases d with
      | interrupted | failed => simp [fill, hle] at h
      | upTo count =>
        rw [fill, if_neg hle] at h
        show fill n (.upTo count :: Delivery.mend script) s.mended = _
        rw [fill, show s.mended.unread = s.unread from rfl, if_neg hle]
        dsimp only at h ⊢
        rw [show s.mended.feed.bytes = s.feed.bytes from rfl,
          show s.mended.capacity = s.capacity from rfl]
        split at h
        · rename_i hempty
          obtain ⟨-, rfl⟩ := EStateM.Result.ok.inj h
          rw [if_pos hempty]
          rfl
        · rename_i hsome
          rw [if_neg hsome]
          exact ih h

theorem peek_mended {head : List UInt8} (h : s.peek n = .ok head t) :
    s.mended.peek n = .ok head t.mended := by
  rw [peek] at h ⊢
  cases hf : fill (min n s.capacity) s.feed.script s with
  | error e u => simp [hf] at h
  | ok a u =>
    have hmended : fill (min n s.mended.capacity) s.mended.feed.script s.mended = .ok () u.mended :=
      fill_mended hf
    rw [hf] at h
    obtain ⟨rfl, rfl⟩ := EStateM.Result.ok.inj h
    rw [hmended]
    rfl

theorem skip_mended (h : s.skip n = .ok () t) : s.mended.skip n = .ok () t.mended := by
  induction n generalizing s with
  | zero =>
    obtain ⟨-, rfl⟩ := EStateM.Result.ok.inj h
    rfl
  | succ n ih =>
    rw [skip] at h ⊢
    cases hn : s.next with
    | error e u => simp [hn] at h
    | ok b u =>
      rw [hn] at h
      rw [next_mended hn]
      cases b with
      | none =>
        obtain ⟨-, rfl⟩ := EStateM.Result.ok.inj h
        rfl
      | some b => exact ih h

theorem nextBytes_mended {bytes : List UInt8} (h : s.nextBytes n = .ok bytes t) :
    s.mended.nextBytes n = .ok bytes t.mended := by
  induction n generalizing s bytes with
  | zero =>
    obtain ⟨rfl, rfl⟩ := EStateM.Result.ok.inj h
    rfl
  | succ n ih =>
    rw [nextBytes] at h ⊢
    cases hn : s.next with
    | error e u => simp [hn] at h
    | ok b u =>
      rw [hn] at h
      rw [next_mended hn]
      cases b with
      | none =>
        obtain ⟨rfl, rfl⟩ := EStateM.Result.ok.inj h
        rfl
      | some b =>
        dsimp only at h ⊢
        cases hb : u.nextBytes n with
        | error e w => simp [hb] at h
        | ok bs w =>
          rw [hb] at h
          obtain ⟨rfl, rfl⟩ := EStateM.Result.ok.inj h
          rw [ih hb]

end Source

namespace Units

variable {u t : Units}

/-- The units of the source without its failures. -/
def mended (u : Units) : Units := { u with source := u.source.mended }

theorem next_mended {unit : Option Nat} (h : u.next = .ok unit t) :
    u.mended.next = .ok unit t.mended := by
  obtain ⟨source, e, pushed⟩ := u
  rw [mended, next]
  rw [next] at h
  cases pushed with
  | some unit =>
    obtain ⟨rfl, rfl⟩ := EStateM.Result.ok.inj h
    rfl
  | none =>
    dsimp only at h ⊢
    cases hb : source.nextBytes e.unitWidth with
    | error e s => simp [hb] at h
    | ok bytes s =>
      rw [hb] at h
      rw [Source.nextBytes_mended hb]
      cases bytes with
      | nil | cons =>
        obtain ⟨rfl, rfl⟩ := EStateM.Result.ok.inj h
        rfl

theorem finish_mended {v : Unfinished} {c : Char} (h : u.finish v = .ok c t) :
    u.mended.finish v = .ok c t.mended := by
  fun_induction finish v u with
  | case1 => simp at h
  | case2 v u w hn =>
    obtain ⟨rfl, rfl⟩ := EStateM.Result.ok.inj h
    rw [finish, next_mended hn]
  | case3 v u unit w hn hfeed =>
    obtain ⟨rfl, rfl⟩ := EStateM.Result.ok.inj h
    rw [finish, next_mended hn]
    dsimp only
    rw [hfeed]
    rfl
  | case4 v u unit w hn c' hfeed =>
    obtain ⟨rfl, rfl⟩ := EStateM.Result.ok.inj h
    rw [finish, next_mended hn]
    dsimp only
    rw [hfeed]
  | case5 v u unit w hn v' hfeed ih =>
    rw [finish, next_mended hn]
    dsimp only
    rw [hfeed]
    exact ih h

theorem nextChar_mended {c : Option Char} (h : u.nextChar = .ok c t) :
    u.mended.nextChar = .ok c t.mended := by
  rw [nextChar] at h ⊢
  cases hn : u.next with
  | error e w => simp [hn] at h
  | ok unit w =>
    rw [hn] at h
    rw [next_mended hn]
    cases unit with
    | none =>
      obtain ⟨rfl, rfl⟩ := EStateM.Result.ok.inj h
      rfl
    | some unit =>
      dsimp only at h ⊢
      rw [show w.mended.encoding = w.encoding from rfl]
      cases hs : Decode.start w.encoding unit with
      | char d =>
        rw [hs] at h
        obtain ⟨rfl, rfl⟩ := EStateM.Result.ok.inj h
        rfl
      | more v =>
        rw [hs] at h
        dsimp only at h ⊢
        cases hf : w.finish v with
        | error e w' => simp [hf] at h
        | ok d w' =>
          rw [hf] at h
          obtain ⟨rfl, rfl⟩ := EStateM.Result.ok.inj h
          rw [finish_mended hf]

theorem nextRaw_mended {c : Option Char} (h : u.nextRaw = .ok c t) :
    u.mended.nextRaw = .ok c t.mended := by
  rw [nextRaw] at h ⊢
  cases hn : u.next with
  | error e w => simp [hn] at h
  | ok unit w =>
    rw [hn] at h
    rw [next_mended hn]
    cases unit with
    | none | some =>
      obtain ⟨rfl, rfl⟩ := EStateM.Result.ok.inj h
      rfl

theorem readChar_mended {s : Strategy} {c : Option Char} (h : u.readChar s = .ok c t) :
    u.mended.readChar s = .ok c t.mended := by
  cases s with
  | raw => exact nextRaw_mended h
  | decode | view | discard => exact nextChar_mended h

theorem scan_mended {s : Strategy} {c : Option Scanned} (h : u.scan s = .ok c t) :
    u.mended.scan s = .ok c t.mended := by
  rw [scan] at h ⊢
  cases hr : u.readChar s with
  | error e w => simp [hr] at h
  | ok d w =>
    rw [hr] at h
    rw [readChar_mended hr]
    cases d with
    | none | some =>
      obtain ⟨rfl, rfl⟩ := EStateM.Result.ok.inj h
      rfl

end Units

namespace Chars

variable {cs t : Chars} {s : Strategy} {folds : Bool} {c : Option Scanned}

/-- The characters of the source without its failures. -/
def mended (cs : Chars) : Chars := { cs with units := cs.units.mended }

theorem take_mended (h : cs.take s = .ok c t) : cs.mended.take s = .ok c t.mended := by
  obtain ⟨units, ahead⟩ := cs
  rw [take] at h
  rw [mended, take]
  cases ahead with
  | some d =>
    obtain ⟨rfl, rfl⟩ := EStateM.Result.ok.inj h
    rfl
  | none =>
    dsimp only at h ⊢
    cases hs : units.scan s with
    | error e u => simp [hs] at h
    | ok d u =>
      rw [hs] at h
      obtain ⟨rfl, rfl⟩ := EStateM.Result.ok.inj h
      rw [Units.scan_mended hs]
      rfl

theorem next_mended (h : cs.next s folds = .ok c t) : cs.mended.next s folds = .ok c t.mended := by
  rw [next] at h ⊢
  cases ht : cs.take s with
  | error e cs' => simp [ht] at h
  | ok d cs' =>
    rw [ht] at h
    rw [take_mended ht]
    cases d with
    | none =>
      obtain ⟨rfl, rfl⟩ := EStateM.Result.ok.inj h
      rfl
    | some d =>
      dsimp only at h ⊢
      by_cases hfold : d.char = '\r' ∧ folds
      · rw [if_pos hfold] at h ⊢
        cases hs : cs'.units.scan s with
        | error e u => simp [hs] at h
        | ok d' u =>
          rw [hs] at h
          rw [show cs'.mended.units.scan s = _ from Units.scan_mended hs]
          cases d' with
          | none =>
            obtain ⟨rfl, rfl⟩ := EStateM.Result.ok.inj h
            rfl
          | some d' =>
            dsimp only at h ⊢
            by_cases hd : d'.char = '\n'
            · rw [if_pos hd] at h ⊢
              obtain ⟨rfl, rfl⟩ := EStateM.Result.ok.inj h
              rfl
            · rw [if_neg hd] at h ⊢
              obtain ⟨rfl, rfl⟩ := EStateM.Result.ok.inj h
              rfl
      · rw [if_neg hfold] at h ⊢
        obtain ⟨rfl, rfl⟩ := EStateM.Result.ok.inj h
        rfl

end Chars

end Tabular
