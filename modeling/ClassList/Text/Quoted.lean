-- Texts between double quotes, on one line and without characters that
-- nobody sees.
import ClassList.Text.Unassigned

namespace ClassList.Text

/-- A number in lower-case hexadecimal without leading zeros. -/
def hex (n : Nat) : Text := Nat.toDigits 16 n

/-- The character is written by its number: nobody would see it, or not know
which one it is. -/
def isHidden (c : Char) : Bool :=
  isControl c || isExtend c || isFormat c || isIgnorable c || isUnseen c || isUnassigned c

/-- How a character is written between the quotes. -/
def quotedChar (c : Char) : Text :=
  match c with
  | '"' => ['\\', '"']
  | '\\' => ['\\', '\\']
  | '\n' => ['\\', 'n']
  | '\r' => ['\\', 'r']
  | '\t' => ['\\', 't']
  | '\x00' => ['\\', '0']
  | c => if isHidden c then ['\\', 'u', '\x7b'] ++ hex c.toNat ++ ['\x7d'] else [c]

/-- The text between double quotes. -/
def quoted (t : Text) : Text := '"' :: t.flatMap quotedChar ++ ['"']

end ClassList.Text
