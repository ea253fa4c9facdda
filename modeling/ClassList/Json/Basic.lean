-- JSON values.
import ClassList.Binary64

namespace ClassList

/-- A JSON value. A number without a point or an exponent is an integer if
it fits into 64 bits. The members of an object keep the order in which their
keys first occurred. -/
inductive Json where
  | null
  | bool (b : Bool)
  | integer (n : Int)
  | float (f : Binary64)
  | string (s : Text)
  | array (items : List Json)
  | object (members : List (Text × Json))

namespace Json

/-- Gives a key a value. A key that is there keeps its place. -/
def insert (key : Text) (value : Json) : List (Text × Json) → List (Text × Json)
  | [] => [(key, value)]
  | (k, v) :: rest => if k = key then (key, value) :: rest else (k, v) :: insert key value rest

/-- The value of a key. Every other value counts as an object without members. -/
def get? (key : Text) : Json → Option Json
  | .object members => members.lookup key
  | _ => none

/-- An object with keys in a given order. -/
def fields (members : List (String × Json)) : Json :=
  .object (members.map fun m => (m.1.toList, m.2))

/-- A text, or null. -/
def ofText? : Option Text → Json
  | some t => .string t
  | none => .null

/-- A number that counts something. -/
def ofNat (n : Nat) : Json := .integer n

end Json

end ClassList
