-- Where the lines of a text start, found once for many questions about its offsets. The
-- answers are those that `line-index` documents: lines and columns count from zero, a column
-- counts bytes, only a line feed ends a line, and an offset past the end or inside a character
-- has no place.
import ClassList.Span

namespace ClassList

/-- The places of a text that decide about lines and columns. -/
structure LineIndex where
  /-- The offsets behind the line feeds, in order. -/
  starts : List Nat
  /-- Where the characters of more than one byte stand. -/
  wide : List Span
  /-- The number of bytes of the text. -/
  size : Nat
deriving DecidableEq

namespace LineIndex

/-- The offsets behind the line feeds of a text that starts at an offset. -/
def startsFrom (n : Nat) : Text → List Nat
  | [] => []
  | c :: t =>
    let next := n + c.utf8Size
    if c = '\n' then next :: startsFrom next t else startsFrom next t

/-- The wide characters of a text that starts at an offset. -/
def wideFrom (n : Nat) : Text → List Span
  | [] => []
  | c :: t =>
    let next := n + c.utf8Size
    if 1 < c.utf8Size then ⟨n, next⟩ :: wideFrom next t else wideFrom next t

def ofText (t : Text) : LineIndex := ⟨startsFrom 0 t, wideFrom 0 t, t.size⟩

/-- The line and the column in bytes of an offset, both from zero. An offset inside a
character or past the end has none. -/
def lineCol? (i : LineIndex) (n : Nat) : Option (Nat × Nat) :=
  if i.size < n || i.wide.any (fun w => w.start < n && n < w.stop) then none
  else
    let passed := i.starts.takeWhile (· ≤ n)
    some (passed.length, n - passed.getLast?.getD 0)

end LineIndex

end ClassList
