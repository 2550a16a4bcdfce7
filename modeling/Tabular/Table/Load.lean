/-
Loading delimited text into a table.

* `Table.loadBytes`, `Table.loadFeed` — a text in memory, a stream;
* `Table.loadShared` — a text in memory, in chunks that are read side by side;
* `splitPoints` — where such a text is cut;
* `Pool` — the workers that read the chunks.

A chunk begins after a line end.  Where cells are split off as bytes every
line end ends a row, so the rows of the chunks are the rows of the text.

Design notes: each worker reads into a table of its own, so all that can be
told of the workers is whether they can be had, in which order they finish and
that the parts are put together in the order of the chunks.
-/
import Tabular.Read.Whole
import Tabular.Table.Basic

namespace Tabular

/-- What comes of loading a table. -/
structure Loaded where
  table : Table
  /-- What there is to say about the read, and how many cells were refused. -/
  result : Except Error (Summary × Nat)
  /-- The bytes accounted for. -/
  progress : Nat

/-- Where the chunks of `bytes` end, all but the last: each is cut after the
first line end that lies at least `size` bytes into it.  The bytes begin at
offset `position` of the text. -/
def cutsFrom (size : Nat) (lineEnd : UInt8) (position : Nat) (bytes : List UInt8) : List Nat :=
  let tail := bytes.drop size
  match _h : tail.dropWhile (· != lineEnd) with
  -- A line end that is the last byte begins no chunk.
  | [] | [_] => []
  | _ :: b :: rest =>
    let cut := position + size + (tail.takeWhile (· != lineEnd)).length + 1
    cut :: cutsFrom size lineEnd cut (b :: rest)
termination_by bytes.length
decreasing_by
  have h1 := (List.dropWhile_sublist (· != lineEnd) (l := bytes.drop size)).length_le
  have h2 := (List.drop_sublist size bytes).length_le
  rw [show (bytes.drop size).dropWhile (· != lineEnd) = _ from _h] at h1
  simp only [List.length_cons] at h1 ⊢
  omega

/-- The ends of the chunks in which `bytes` are shared out among workers, from
`start` to the end of the bytes. -/
def splitPoints (bytes : List UInt8) (start : Nat) (lineEnd : UInt8) (workers minimum : Nat) :
    List Nat :=
  let start := min start bytes.length
  let size := max (max ((bytes.length - start) / workers) minimum) 1
  (start :: cutsFrom size lineEnd start (bytes.drop start) ++ [bytes.length]).eraseReps

/-- The bytes between each point and the next. -/
def chunksAt (bytes : List UInt8) (points : List Nat) : List (List UInt8) :=
  (points.zip points.tail).map fun (a, b) => (⟨a, b⟩ : Span).slice bytes

namespace Table

/-- Stores cells that were handed over, `offset` rows further down, and counts
those refused. -/
def store (t : Table) (offset : Nat) (handed : List Handed) : Table × Nat :=
  t.addAll (handed.map fun h => (rowBelow h.row offset, h.column, h.cell.text))

/-- Stores what comes out of a read, `offset` rows further down. -/
def load (t : Table) (offset : Nat) (o : Outcome) : Loaded :=
  let (t, refused) := t.store offset o.handed
  { table := t, result := o.result.map (·, refused), progress := o.progress }

/-- Loads a text in memory. -/
def loadBytes (t : Table) (bytes : List UInt8) (f : Format) (o : ReadOptions) : Loaded :=
  t.load 0 (readBytes bytes f o .always)

/-- Loads a stream. -/
def loadFeed (t : Table) (feed : Feed) (f : Format) (o : ReadOptions) : Loaded :=
  t.load 0 (readFeed feed f o .always)

end Table

/-- What comes of one chunk, which is loaded into a table of its own. -/
structure Part where
  table : Table
  rows : Nat
  bytesRead : Nat
  refused : Nat
  /-- The bytes accounted for. -/
  progress : Nat

/-- Loads a chunk. -/
def Part.load (d : Bytewise.Ends) (e : Encoding) (config : TableConfig) (chunk : List UInt8) :
    Part :=
  let r := Bytewise.run d e .always 0 chunk
  let (table, refused) := (Table.empty config).store 0 r.handed.reverse
  ⟨table, r.rows, r.bytesRead, refused, r.progress⟩

/-- What has come of the parts put together so far. -/
structure Merged where
  table : Table
  rows : Nat
  bytesRead : Nat
  refused : Nat

/-- Puts one part more below the others. -/
def Merged.append (m : Merged) (part : Part) : Merged :=
  let (table, refused) := m.table.append part.table m.rows
  { table
    rows := m.rows + part.rows
    bytesRead := m.bytesRead + part.bytesRead
    refused := m.refused + (part.refused + refused) }

/-- Workers that load chunks side by side.  Parts are given with the numbers of
their chunks. -/
structure Pool where
  /-- Why so many workers cannot be had, if they cannot. -/
  obstacle? : Nat → Option String
  /-- The parts in the order in which they are finished. -/
  finish : List (Part × Nat) → List (Part × Nat)
  /-- The parts that have been finished, put together. -/
  collect : List (Part × Nat) → List Part

/-- Workers that finish one chunk after another. -/
def Pool.inTurn : Pool where
  obstacle? _ := none
  finish := id
  collect done := (done.mergeSort fun a b => a.2 ≤ b.2).map Prod.fst

namespace Table

/-- Loads a text in memory in chunks, where its format allows it and it is
worth it. -/
def loadShared (t : Table) (pool : Pool) (bytes : List UInt8) (f : Format) (o : ReadOptions) :
    Loaded :=
  if o.workers = 0 then { table := t, result := .error .noWorkers, progress := 0 }
  else
    let (e, start) := f.encoding.resolve (bytes.take 4)
    match f.byteEnds? with
    | none => t.loadBytes bytes f o
    | some d =>
      let points := splitPoints bytes start d.lineEnd o.workers o.minimumChunk
      if o.allowBytewise && f.splitsBytes e && 1 < o.workers && 2 < points.length then
        match pool.obstacle? o.workers with
        -- The chunks begin after the byte order mark, which is accounted for before.
        | some reason => { table := t, result := .error (.noPool reason), progress := start }
        | none =>
          let parts := (chunksAt bytes points).map (Part.load d e t.config)
          let done := pool.finish parts.zipIdx
          let m := (pool.collect done).foldl Merged.append ⟨t, 0, start, 0⟩
          { table := m.table
            result := .ok (f.splitSummary e m.rows m.bytesRead false, m.refused)
            progress := done.foldl (fun progress part => progress + part.1.progress) start }
      else t.loadBytes bytes f o

end Table

end Tabular
