-- Vocabularies: the screens, variants and utilities that someone may use,
-- and which names they admit.
import ClassList.Binary64
import ClassList.Rule.Basic

namespace ClassList

/-! ## Plain numbers -/

/-- A number written with digits and at most one point, as in `12` or `.5`. Its
value is `digits / 10 ^ places`. -/
structure PlainNumber where
  digits : Nat
  places : Nat
deriving DecidableEq

namespace PlainNumber

/-- Reads digits with at most one point among them. A point alone is no number. -/
def read? (t : Text) : Option PlainNumber :=
  let whole := t.takeWhile Char.isDigit
  match t.dropWhile Char.isDigit with
  | [] => if whole.isEmpty then none else some ⟨Text.toNat whole, 0⟩
  | '.' :: rest =>
    if rest.all Char.isDigit && !(whole ++ rest).isEmpty then
      some ⟨Text.toNat (whole ++ rest), rest.length⟩
    else none
  | _ => none

/-- The number does not vanish when it is rounded to binary floating point. -/
def isPositive (n : PlainNumber) : Bool := 0 < Binary64.nearest n.digits (Nat.pow 10 n.places)

end PlainNumber

/-! ## Utilities -/

/-- What may follow the value of a utility. -/
inductive Interpolation where
  /-- Anything but nothing. -/
  | string
  /-- A number, also zero. -/
  | number
  /-- A number above zero. -/
  | nonzero
deriving DecidableEq

def Interpolation.accepts : Interpolation → Text → Bool
  | string, rest => !rest.isEmpty
  | number, rest => (PlainNumber.read? rest).isSome
  | nonzero, rest => (PlainNumber.read? rest).any PlainNumber.isPositive

/-- A utility: a full name, or the start of one if something may follow. -/
structure Utility where
  value : Text
  interpolation : Option Interpolation
  /-- The declarations that the utility stands for. -/
  css : Option Text
deriving DecidableEq

/-- The utility admits a name. -/
def Utility.accepts (u : Utility) (name : Text) : Bool :=
  match u.interpolation with
  | none => u.value == name
  | some i => (name.dropStart? u.value).any i.accepts

/-! ## Vocabularies -/

structure Vocabulary where
  /-- The screens and their least widths, each screen once. -/
  screens : List (Text × Text)
  /-- The variants without their last colons: `hover`, `after:`. -/
  variants : List Text
  utilities : List Utility
deriving DecidableEq

namespace Vocabulary

/-- The part in front of the first square bracket, if the name ends with the
other one, as in `w-[3px]`. -/
def bracketHead? (name : Text) : Option Text :=
  match name.dropWhile (· ≠ '[') with
  | _ :: rest => if rest.getLast? == some ']' then some (name.takeWhile (· ≠ '[')) else none
  | [] => none

/-- A part of the name is filled in by a program. -/
def isTemplate (name : Text) : Bool := Text.hasPart ['$', '\x7b'] name

/-- A utility of this name exists. Nobody can tell for a template, and an empty
name belongs to a variant without a utility. -/
def knowsUtility (v : Vocabulary) (name : Text) : Bool :=
  if isTemplate name || name.isEmpty then true
  else
    match bracketHead? name with
    | some head => v.utilities.any fun u => u.interpolation.isSome && u.value == head
    | none => v.utilities.any (·.accepts name)

/-- A variant of this name exists: a listed one, a screen, or one in square brackets. -/
def knowsVariant (v : Vocabulary) (name : Text) : Bool :=
  v.variants.contains name || (v.screens.map Prod.fst).contains name ||
    (name.head? == some '[' && name.getLast? == some ']')

/-- The declarations of the first utility with the name of a rule. -/
def css (v : Vocabulary) (r : Rule) : Option Text :=
  (v.utilities.find? (·.value == r.name)).bind Utility.css

end Vocabulary

end ClassList
