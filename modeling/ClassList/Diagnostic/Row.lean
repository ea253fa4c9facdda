-- Rows of characters that are drawn piece by piece. A later piece covers an
-- earlier one.
import ClassList.Text.Width

namespace ClassList.Text

/-- Writes a piece over a row, from a column on. A row that ends in front of the
piece is filled with spaces. -/
def paint (row : Text) (column : Nat) (piece : Text) : Text :=
  if piece.isEmpty then row
  else row.take column ++ spaces (column - row.length) ++ piece ++
    row.drop (column + piece.length)

/-- The longest first part that takes no more than a number of columns. -/
def fitting (room : Nat) : Text → Text
  | [] => []
  | c :: t => if cellWidth c ≤ room then c :: fitting (room - cellWidth c) t else []

end ClassList.Text
