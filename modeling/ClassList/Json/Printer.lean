-- Writing JSON, on one line or indented.
import ClassList.Json.Basic
import ClassList.Text.Quoted

namespace ClassList.Json

/-! ## Strings -/

/-- How a character is written between the quotes. -/
def escaped (c : Char) : Text :=
  match c with
  | '"' => ['\\', '"']
  | '\\' => ['\\', '\\']
  | '\n' => ['\\', 'n']
  | '\r' => ['\\', 'r']
  | '\t' => ['\\', 't']
  | '\x08' => ['\\', 'b']
  | '\x0c' => ['\\', 'f']
  | c =>
    if c.toNat < 0x20 then
      let digits := Text.hex c.toNat
      ['\\', 'u'] ++ List.replicate (4 - digits.length) '0' ++ digits
    else [c]

/-- A string with its quotes. -/
def stringText (s : Text) : Text := '"' :: s.flatMap escaped ++ ['"']

/-! ## Values -/

/-- What divides two parts of an array or an object, and what stands in front
of the first and behind the last one. -/
structure Layout where
  /-- The text in front of a part at a depth. -/
  lineBreak : Nat → Text
  /-- The text between a key and its value. -/
  colon : Text

/-- Everything on one line without blanks. -/
def Layout.compact : Layout := ⟨fun _ => [], [':']⟩

/-- Each part on a line of its own, two blanks further right than the line of
the bracket. -/
def Layout.indented : Layout :=
  ⟨fun depth => '\n' :: List.replicate (2 * depth) ' ', [':', ' ']⟩

mutual

/-- A value at a depth. -/
def write (l : Layout) (depth : Nat) : Json → Text
  | .null => "null".toList
  | .bool b => (if b then "true" else "false").toList
  | .integer n => Text.ofInt n
  | .float f => f.text
  | .string s => stringText s
  | .array [] => ['[', ']']
  | .array (v :: rest) =>
    '[' :: l.lineBreak (depth + 1) ++ write l (depth + 1) v ++ writeItems l (depth + 1) rest ++
      l.lineBreak depth ++ [']']
  | .object [] => ['\x7b', '\x7d']
  | .object ((k, v) :: rest) =>
    '\x7b' :: l.lineBreak (depth + 1) ++ stringText k ++ l.colon ++ write l (depth + 1) v ++
      writeMembers l (depth + 1) rest ++ l.lineBreak depth ++ ['\x7d']

/-- Further items of an array, each behind a comma. -/
def writeItems (l : Layout) (depth : Nat) : List Json → Text
  | [] => []
  | v :: rest => ',' :: l.lineBreak depth ++ write l depth v ++ writeItems l depth rest

/-- Further members of an object, each behind a comma. -/
def writeMembers (l : Layout) (depth : Nat) : List (Text × Json) → Text
  | [] => []
  | (k, v) :: rest =>
    ',' :: l.lineBreak depth ++ stringText k ++ l.colon ++ write l depth v ++
      writeMembers l depth rest

end

/-- The value on one line. -/
def compact (v : Json) : Text := write .compact 0 v

/-- The value over several lines. -/
def pretty (v : Json) : Text := write .indented 0 v

end ClassList.Json
