/-
Reading a whole text: from memory, from a stream, or from a file.

A text in memory is split as bytes where its format and the options allow it,
and is read character by character otherwise.  A stream is always read
character by character.
-/
import Tabular.Read.Bytewise
import Tabular.Read.Reader

namespace Tabular

/-- Whether the options leave it open to split bytes. -/
def ReadOptions.allowBytewise (o : ReadOptions) : Bool :=
  !o.characterwise && (o.strategy == none || o.strategy == some .view)

/-- What comes out of a reader, if it could be started. -/
def Outcome.ofReader (judge : Judge) : Except Error Reader → Outcome
  | .error e => failed e
  | .ok r => r.outcome judge

/-- Reads a text in memory. -/
def readBytes (bytes : List UInt8) (f : Format) (o : ReadOptions) (judge : Judge) : Outcome :=
  let (e, markSize) := f.encoding.resolve (bytes.take 4)
  if o.allowBytewise && f.splitsBytes e then f.splitBytes e judge markSize bytes
  else .ofReader judge (Reader.ofBytes bytes f o)

/-- Reads a stream. -/
def readFeed (feed : Feed) (f : Format) (o : ReadOptions) (judge : Judge) : Outcome :=
  .ofReader judge (Reader.ofFeed feed f o)

/-- Reads a file of which the contents are given, if there is such a file. -/
def readContents (contents : Option (List UInt8)) (f : Format) (o : ReadOptions) (judge : Judge) :
    Outcome :=
  match contents with
  | none => .failed (.io .missing)
  | some bytes => readFeed ⟨bytes, []⟩ f o judge

end Tabular
