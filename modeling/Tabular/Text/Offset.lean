/-
Cutting a text at a byte offset, where its characters are stored as UTF-8.
-/

namespace Tabular

/-- The first characters, as many as take `n` bytes, and those after them;
`none` if the cut would fall inside a character or beyond the end. -/
def cutAt? : Nat → List Char → Option (List Char × List Char)
  | 0, cs => some ([], cs)
  | _ + 1, [] => none
  | n + 1, c :: cs =>
    if c.utf8Size ≤ n + 1 then
      (cutAt? (n + 1 - c.utf8Size) cs).map fun cut => (c :: cut.1, cut.2)
    else none

end Tabular
