/-
Blocks: stores of text that only grow.

Each text in a block is followed by a NUL and is found again by its offset and
its length, both in bytes.  A block is given its capacity once and for all.
-/
import Tabular.Text.Offset

namespace Tabular

structure Block where
  /-- The texts stored, each followed by a NUL. -/
  content : String
  /-- The number of bytes that there is room for. -/
  capacity : Nat
  deriving DecidableEq

namespace Block

def empty (capacity : Nat) : Block := ⟨"", capacity⟩

/-- The number of bytes in use. -/
def used (b : Block) : Nat := b.content.utf8ByteSize

/-- The number of bytes that are free. -/
def remaining (b : Block) : Nat := b.capacity - b.used

/-- Whether there is room for a text of `length` bytes and its NUL. -/
def fits (b : Block) (length : Nat) : Bool := length < b.remaining

/-- Puts a text after those stored. -/
def push (b : Block) (value : String) : Block :=
  { b with content := b.content ++ value ++ "\x00" }

/-- The offset at which a text of `length` bytes would be stored, if there is
room. -/
def room? (b : Block) (length : Nat) : Option Nat := if b.fits length then some b.used else none

/-- Stores a text and gives its offset, if there is room. -/
def push? (b : Block) (value : String) : Option (Nat × Block) :=
  (b.room? value.utf8ByteSize).map fun offset => (offset, b.push value)

/-- The text of `length` bytes at `offset`; `none` if the block does not hold
so much, or if the range cuts a character. -/
def get? (b : Block) (offset length : Nat) : Option String := do
  let (_, tail) ← cutAt? offset b.content.toList
  let (value, _) ← cutAt? length tail
  return String.ofList value

end Block

end Tabular
