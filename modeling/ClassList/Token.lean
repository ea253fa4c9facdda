-- The two kinds of words of a class list: variants such as `hover:` and
-- identifiers such as `-mx-5` or `bg-red-500!`.
import ClassList.Text

namespace ClassList

/-! ## Variants -/

/-- A variant with its colons: `hover:` or `after::`. -/
structure Variant where
  raw : Text
deriving DecidableEq

namespace Variant

/-- The text that a rule shows for the variant. -/
def value (v : Variant) : Text := v.raw

/-- The variant without its last colon: `hover` or `after:`. -/
def name (v : Variant) : Text := v.raw.dropLast

end Variant

/-! ## Identifiers -/

/-- A name with its markers. It is closed when white space, a closing
parenthesis or the end of the text follows it; the name in front of a group
is open. -/
structure Identifier where
  raw : Text
  closed : Bool
deriving DecidableEq

namespace Identifier

/-- The name starts or ends with `!`. -/
def important (i : Identifier) : Bool :=
  i.raw.head? == some '!' || i.raw.getLast? == some '!'

/-- The name without one `!`, the first one if there are two. -/
def unmarked (i : Identifier) : Text :=
  if i.raw.head? == some '!' then i.raw.tail
  else if i.raw.getLast? == some '!' then i.raw.dropLast
  else i.raw

/-- A `-` stands in front, behind a `!` or not. -/
def negated (i : Identifier) : Bool := i.unmarked.head? == some '-'

/-- The name without its markers. -/
def name (i : Identifier) : Text := if i.negated then i.unmarked.tail else i.unmarked

end Identifier

end ClassList
