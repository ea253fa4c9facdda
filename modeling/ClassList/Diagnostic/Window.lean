-- Which part of long lines is shown. The marked columns matter most, then
-- the words behind them, then the code.
import ClassList.Diagnostic.Excerpt

namespace ClassList

/-- The part of the lines of an excerpt that is shown. -/
inductive Window where
  /-- Every line is blank, and nothing of it is shown. -/
  | blank
  /-- What stands behind the column `left` is shown. A line with more than `room`
  bytes behind it ends at the column `right`, and if it goes on behind `edge`,
  something is missing there. -/
  | columns (left right edge room : Nat)
deriving DecidableEq

/-- The part of one line that is shown. -/
structure Cut where
  /-- How many characters are left out at the start. -/
  skip : Nat
  /-- How many columns are shown at most. -/
  room : Nat
  /-- Dots stand at the start. -/
  dotsBefore : Bool
  /-- Dots stand at the end. -/
  dotsBehind : Bool
deriving DecidableEq

namespace Window

/-- The cut of a line with so many bytes. -/
def cut (size : Nat) : Window → Cut
  | blank => ⟨size, 0, true, false⟩
  | columns left right edge room =>
    let skip := min left size
    let stop := if size - left ≤ room || size < right then size else right
    ⟨skip, stop - skip, 0 < left, edge < size && left + room < size⟩

/-- The room beside the marked columns. -/
def margin : Nat := 6

/-- The room for the words behind the marks. -/
def labelSize : Nat := 5

/-- The window for lines with a common indentation, a longest line, and marks
from the column `first` on and in front of `last`. A deep indentation is always
left out. If the lines are too long even so, the window starts at the
indentation, or else it shows the marks and their words in its middle, or the
marks alone. -/
def around (indent longest first last room : Nat) : Window :=
  let indent := indent - margin
  let start := first - margin
  let stop := last + margin
  let labelStop := stop + labelSize
  let deep := if 20 < indent then indent - 16 else 0
  let (left, right) :=
    if longest - deep ≤ room then (deep, max longest deep)
    else if indent ≤ labelStop ∧ labelStop - indent ≤ room then (indent, indent + room)
    else if labelStop - start ≤ room then
      let left := start - (room - (labelStop - start)) / 2
      (left, left + room)
    else if stop - start ≤ room then
      let left := start - (room - (stop - start)) / 5 * 2
      (left, left + room)
    else (start, stop)
  columns left right (if right = stop ∨ right = labelStop then right - margin else right) room

end Window

namespace Excerpt

/-- The number of the last line, the touched ones too. -/
def lastNumber (e : Excerpt) : Nat := e.number + (e.lines.length + e.rest.length) - 1

/-- The columns for the code, of 140 in all. -/
def room (e : Excerpt) : Nat := 140 - (3 + (Text.ofNat (e.lastNumber + 1)).length)

/-- The part of the lines that is shown. -/
def window (e : Excerpt) : Window :=
  let lines := e.lines ++ e.rest
  match (lines.filterMap (·.indent?)).min?, e.columns with
  | some indent, c :: cs =>
    let longest := (lines.map (·.text.size)).foldl max 0
    let first := (cs.map (·.first)).foldl min c.first
    let last := (cs.map (·.last)).foldl max c.last
    Window.around indent longest first last e.room
  | _, _ => .blank

end Excerpt

end ClassList
