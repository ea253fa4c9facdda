-- The lines of a text around a range, and the columns that the range takes
-- in them.
import ClassList.Span
import ClassList.Text.Width

namespace ClassList

/-! ## Lines -/

/-- A line of an excerpt, without the characters that end it. -/
structure SourceLine where
  text : Text
  /-- The offset of its first character in the excerpt. -/
  start : Nat
  /-- How many bytes end the line: a line feed with or without a carriage
  return, or nothing. -/
  ending : Nat
deriving DecidableEq

namespace SourceLine

/-- The offset behind the last character of the line. -/
def stop (l : SourceLine) : Nat := l.start + l.text.size

/-- The last offset that still counts as a place of the line. -/
def reach (l : SourceLine) : Nat := l.stop + max l.ending 1

/-- The characters of the line in front of an offset. -/
def before (l : SourceLine) (n : Nat) : Text := l.text.upTo (n - l.start)

/-- The column of an offset as it is shown. -/
def column (l : SourceLine) (n : Nat) : Nat := (l.before n).width

/-- The columns of the white space at the start of the line. A tab has four. A
line of white space only has no indentation. -/
def indent? (l : SourceLine) : Option Nat :=
  if l.text.all Text.isWhite then none
  else
    let blank := l.text.takeWhile Text.isWhite
    some (blank.length + 3 * blank.count '\t')

/-- How a character of a line is shown. Tabs have a fixed size, and characters
that would change the direction or join their neighbours are left out. -/
def shownChar (c : Char) : Text :=
  if c = '\t' then [' ', ' ', ' ', ' ']
  else if c = '\u200d' || ('\u202a' ≤ c && c ≤ '\u202e') || ('\u2066' ≤ c && c ≤ '\u2069') then
    []
  else [c]

def shown (l : SourceLine) : Text := l.text.flatMap shownChar

end SourceLine

/-- The lines of a text from an offset on, behind the start of a line in
reverse. There is no line behind a final line feed. -/
def Text.lines (start : Nat) (line : Text) : Text → List SourceLine
  | [] => if line.isEmpty then [] else [⟨line.reverse, start, 0⟩]
  | c :: t =>
    if c = '\n' then
      let next := start + line.size + 1
      match line with
      | '\r' :: rest => ⟨rest.reverse, start, 2⟩ :: lines next [] t
      | _ => ⟨line.reverse, start, 1⟩ :: lines next [] t
    else lines start (c :: line) t

/-! ## Excerpts -/

/-- The whole lines around a range. Its offsets count from the first of them. -/
structure Excerpt where
  /-- The number of the first line, from one. -/
  number : Nat
  /-- The lines from the one with the start of the range to the one with its
  stop. -/
  lines : List SourceLine
  /-- The lines that the range only touches, behind a line feed at its stop. -/
  rest : List SourceLine
  start : Nat
  stop : Nat
deriving DecidableEq

namespace Excerpt

/-- The lines around a part of a text, from the one that holds its start to the one that
holds its stop. -/
def around (before inside behind : Text) : Excerpt :=
  let head := before.lastLine
  let tail := behind.takeWhile (· ≠ '\n')
  let stop := head.size + inside.size
  let lines := Text.lines 0 [] (head ++ inside ++ tail)
  let full := (lines.takeWhile (·.reach < stop)).length
  { number := 1 + before.count '\n'
    lines := lines.take (full + 1)
    rest := lines.drop (full + 1)
    start := head.size
    stop := stop }

/-- The lines around a range. -/
def ofRange (t : Text) (range : Span) : Excerpt :=
  let before := t.upTo range.start
  around before ((t.upTo range.stop).drop before.length) (t.after range.stop)

/-- The place of the range: a line and a column, both from one. The column
counts characters. An excerpt without lines says nothing about its place. -/
def position (e : Excerpt) : Nat × Nat :=
  match e.lines with
  | [] => (1, 1)
  | l :: _ => (e.number, (l.before e.start).length + 1)

/-! ## Columns -/

/-- The columns from `first` on and in front of `last`. -/
structure Columns where
  first : Nat
  last : Nat
deriving DecidableEq

/-- The columns of a range within one line. There is at least one. -/
def within (e : Excerpt) (l : SourceLine) : Columns :=
  let first := l.column e.start
  let last := l.column e.stop
  ⟨first, if first = last then first + 1 else last⟩

/-- The column where a range over several lines starts. -/
def opening (e : Excerpt) (l : SourceLine) : Columns :=
  ⟨l.column e.start, l.column e.start + 1⟩

/-- The last column of a range over several lines. A range that takes in the end
of the line goes one column further. -/
def closing (e : Excerpt) (l : SourceLine) : Columns :=
  let last := l.column e.stop - 1 + (if l.stop < e.stop then 1 else 0)
  ⟨last, last + 1⟩

/-- The columns that are marked below the lines. -/
def columns (e : Excerpt) : List Columns :=
  match e.lines with
  | [] => []
  | [l] => [e.within l]
  | l :: m :: rest => [e.opening l, e.closing ((m :: rest).getLast?.getD m)]

end Excerpt

end ClassList
