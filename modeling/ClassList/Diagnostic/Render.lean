-- Diagnostics for a reader: the message, the lines of its place, and marks
-- below the text that it is about. The rows are those of the plain renderer of
-- `annotate-snippets` 0.11 for one snippet with one labelled annotation and folding:
-- at most 140 columns, four for a tab, and one mark at least.
import ClassList.Diagnostic.Basic
import ClassList.Diagnostic.Row
import ClassList.Diagnostic.Window

namespace ClassList

/-! ## Levels -/

namespace Level

/-- The character below the text. -/
def mark : Level → Char
  | error => '^'
  | _ => '-'

/-- The words behind the marks. -/
def label : Level → Text
  | error | warning => "here".toList
  | l => l.name.toList ++ ": here".toList

end Level

namespace Excerpt

/-! ## The layout of a row -/

/-- How many digits the largest line number has. -/
def gutter (e : Excerpt) : Nat :=
  if e.lines.isEmpty then 0 else (Text.ofNat (e.number + e.lines.length - 1)).length

/-- The column of the bar that joins the lines of a range. -/
def barColumn (e : Excerpt) : Nat := e.gutter + 3

/-- The column where code starts. The bar of a range over several lines stands
in front of it. -/
def codeColumn (e : Excerpt) : Nat :=
  if 1 < e.lines.length then e.barColumn + 2 else e.barColumn

/-- The left border of a row without a number. -/
def border (e : Excerpt) : Text := Text.paint [] (e.gutter + 1) ['|']

def dots : Text := ['.', '.', '.']

/-! ## Code -/

/-- How a line is cut. -/
def cut (e : Excerpt) (l : SourceLine) : Cut := e.window.cut l.shown.size

/-- The columns of a line that are left out at its start. -/
def lost (e : Excerpt) (l : SourceLine) : Nat := Text.cells (l.shown.take (e.cut l).skip)

/-- The row of a line: its number, the bar, and the code, with dots where code is
left out. -/
def codeRow (e : Excerpt) (number : Nat) (bar : Text) (l : SourceLine) : Text :=
  let digits := Text.ofNat number
  let cut := e.cut l
  let code := Text.fitting cut.room (l.shown.drop cut.skip)
  let row := (e.border.paint (e.gutter - digits.length) digits).paint e.barColumn bar
  let row := row.paint e.codeColumn code
  let row := if cut.dotsBefore then row.paint e.codeColumn dots else row
  if cut.dotsBehind then row.paint (e.codeColumn + code.cells - 3) dots else row

/-! ## Marks -/

/-- Draws the marks of some columns over the row below a line. Columns in front
of the row fall together on its start. -/
def drawMarks (e : Excerpt) (level : Level) (l : SourceLine) (c : Columns) (row : Text) : Text :=
  let lost := e.lost l
  let start := e.codeColumn + c.first - lost
  let stop := e.codeColumn + c.last - lost
  row.paint start (List.replicate (max 1 (stop - start)) level.mark)

/-- Draws the words behind the marks. -/
def drawLabel (e : Excerpt) (level : Level) (l : SourceLine) (c : Columns) (row : Text) : Text :=
  row.paint (e.codeColumn + (c.last + 1 - e.lost l)) level.label

/-- Draws the line from the bar to the marks. -/
def drawReach (e : Excerpt) (l : SourceLine) (c : Columns) (row : Text) : Text :=
  let count := e.codeColumn + c.first - e.lost l - e.barColumn
  row.paint (e.barColumn + 1) (List.replicate count '_')

/-! ## Ranges -/

/-- A range within one line: the line and the marks below it. -/
def drawSingle (e : Excerpt) (level : Level) (l : SourceLine) : List Text :=
  let c := e.within l
  [e.codeRow e.number [] l, e.drawMarks level l c (e.drawLabel level l c e.border)]

/-- The first line of a range over several lines. The bar starts beside the line
if only white space stands in front of the range, and else below it. -/
def drawFirst (e : Excerpt) (level : Level) (l : SourceLine) : List Text :=
  let c := e.opening l
  if (l.shown.take c.first).all Text.isWhite then
    [(e.codeRow e.number [] l).paint e.barColumn ['/']]
  else [e.codeRow e.number [] l, e.drawMarks level l c (e.drawReach l c e.border)]

/-- The lines between the first and the last one, each with the bar. Of more
than three only the first and the last are shown. -/
def drawInner (e : Excerpt) (lines : List SourceLine) : List Text :=
  let numbered := lines.zipIdx (e.number + 1)
  let draw := List.map fun (l, number) => e.codeRow number ['|'] l
  if lines.length ≤ 3 then draw numbered
  else
    draw (numbered.take 1) ++ [dots.paint e.barColumn ['|']] ++
      draw (numbered.drop (lines.length - 1))

/-- The last line of a range over several lines. -/
def drawLast (e : Excerpt) (level : Level) (l : SourceLine) : List Text :=
  let c := e.closing l
  let reach := (e.drawReach l c e.border).paint e.barColumn ['|']
  [(e.codeRow (e.number + e.lines.length - 1) [] l).paint e.barColumn ['|'],
   e.drawMarks level l c (e.drawLabel level l c reach)]

/-- The lines of an excerpt and the marks below them. -/
def drawBody (e : Excerpt) (level : Level) : List Text :=
  match e.lines with
  | [] => []
  | [l] => e.drawSingle level l
  | l :: m :: rest =>
    e.drawFirst level l ++ e.drawInner (m :: rest).dropLast ++
      e.drawLast level ((m :: rest).getLast?.getD m)

end Excerpt

/-! ## Diagnostics -/

namespace Diagnostic

/-- The level and the message. -/
def title (d : Diagnostic) : Text :=
  if d.message.isEmpty then d.level.name.toList else d.level.name.toList ++ [':', ' '] ++ d.message

/-- The line that names the file and the place. -/
def header (path : Text) (e : Excerpt) : Text :=
  let (line, column) := e.position
  Text.spaces e.gutter ++ "-->".toList ++ (if path.isEmpty then [] else ' ' :: path) ++
    ':' :: Text.ofNat line ++ ':' :: Text.ofNat column

/-- The diagnostic with the lines that it is about. No line feed stands at the end. -/
def draw (d : Diagnostic) (path : Text) (e : Excerpt) : Text :=
  ['\n'].intercalate
    (d.title :: header path e :: e.border :: e.drawBody d.level ++ [e.border])

/-- The diagnostic of a text. -/
def render (d : Diagnostic) (path text : Text) : Text := d.draw path (.ofRange text d.range)

end Diagnostic

end ClassList
