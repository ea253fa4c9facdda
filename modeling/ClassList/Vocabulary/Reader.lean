-- Vocabularies out of JSON documents.
import ClassList.Json.Reader
import ClassList.Text.Quoted
import ClassList.Vocabulary.Basic

namespace ClassList

/-! ## Errors -/

/-- What a place of the document should have held. -/
inductive Shape where
  | map
  | sequence
  | string
deriving DecidableEq

/-- A document of the wrong shape. -/
inductive ShapeError where
  /-- A value of another kind than expected. -/
  | mismatch (found : Json) (expected : Shape)
  /-- An entry among the utilities that is none. -/
  | badUtility

/-- Why a document is no vocabulary. -/
inductive LoadError where
  | malformed (f : Json.Failure)
  | notAnObject
  | misshapen (e : ShapeError)

def Shape.describe : Shape → String
  | map => "a map"
  | sequence => "a sequence"
  | string => "a string"

/-- A value as an error names it: its kind, and what it is unless it has parts. -/
def Json.describe : Json → Text
  | .null => "null".toList
  | .bool b => "boolean `".toList ++ (if b then "true" else "false").toList ++ ['`']
  | .integer n => "integer `".toList ++ Text.ofInt n ++ ['`']
  | .float f => "floating point `".toList ++ f.text ++ ['`']
  | .string s => "string ".toList ++ s.quoted
  | .array _ => "sequence".toList
  | .object _ => "map".toList

def ShapeError.message : ShapeError → Text
  | mismatch found expected =>
    "invalid type: ".toList ++ found.describe ++ ", expected ".toList ++ expected.describe.toList
  | badUtility => "data did not match any variant of untagged enum UtilityDef".toList

namespace LoadError

/-- What went wrong, in few words. -/
def summary : LoadError → String
  | notAnObject => "vocabulary must be a JSON object"
  | _ => "invalid vocabulary"

/-- The kind of mistake in the document: it ends too early, it is no JSON, or
it has the wrong shape. -/
def category? : LoadError → Option String
  | malformed f => some (if f.cause.isEof then "eof" else "syntax")
  | notAnObject => none
  | misshapen _ => some "data"

/-- Where the shape is wrong. -/
def shapeMessage? : LoadError → Option Text
  | misshapen e => some e.message
  | _ => none

/-- The summary and, below it, the mistake in the document. -/
def causes (document : Text) : LoadError → List Text
  | malformed f => ["invalid vocabulary".toList, f.message document]
  | notAnObject => ["vocabulary must be a JSON object".toList]
  | misshapen e => ["invalid vocabulary".toList, e.message]

end LoadError

/-! ## Parts -/

namespace Json

def asText : Json → Except ShapeError Text
  | .string s => .ok s
  | v => .error (.mismatch v .string)

def asItems : Json → Except ShapeError (List Json)
  | .array items => .ok items
  | v => .error (.mismatch v .sequence)

def asMembers : Json → Except ShapeError (List (Text × Json))
  | .object members => .ok members
  | v => .error (.mismatch v .map)

end Json

namespace Interpolation

def ofName? (name : Text) : Option Interpolation :=
  if name = "string".toList then some .string
  else if name = "number".toList then some .number
  else if name = "nonzero".toList then some .nonzero
  else none

/-- Null for none, a name, or an object with a name as its only key and null as
its value. The outer option says whether it is one of these. -/
def ofJson? : Json → Option (Option Interpolation)
  | .null => some none
  | .string name => (ofName? name).map some
  | .object [(name, .null)] => (ofName? name).map some
  | _ => none

end Interpolation

namespace Utility

/-- Declarations, or null. -/
def cssOfJson? : Json → Option (Option Text)
  | .null => some none
  | .string s => some (some s)
  | _ => none

/-- A name, or an object with a value, an interpolation and declarations. -/
def ofJson? : Json → Option Utility
  | .string value => some ⟨value, none, none⟩
  | .object members => do
    let .string value ← members.lookup "value".toList | none
    let interpolation ← Interpolation.ofJson? ((members.lookup "interpolation".toList).getD .null)
    let css ← cssOfJson? ((members.lookup "css".toList).getD .null)
    some ⟨value, interpolation, css⟩
  | _ => none

end Utility

/-! ## Vocabularies -/

namespace Vocabulary

def empty : Vocabulary := ⟨[], [], []⟩

def screensOfJson (v : Json) : Except ShapeError (List (Text × Text)) := do
  (← v.asMembers).mapM fun (name, width) => do return (name, ← width.asText)

def variantsOfJson (v : Json) : Except ShapeError (List Text) := do
  (← v.asItems).mapM Json.asText

def utilitiesOfJson (v : Json) : Except ShapeError (List Utility) := do
  (← v.asItems).mapM fun item =>
    match Utility.ofJson? item with
    | some u => .ok u
    | none => .error .badUtility

/-- Takes in one member of the document. An unknown one is left out. -/
def addMember (v : Vocabulary) (member : Text × Json) : Except ShapeError Vocabulary :=
  match String.ofList member.1 with
  | "screens" => do return { v with screens := ← screensOfJson member.2 }
  | "variants" => do return { v with variants := ← variantsOfJson member.2 }
  | "utilities" => do return { v with utilities := ← utilitiesOfJson member.2 }
  | _ => .ok v

/-- The vocabulary that a document describes. -/
def parse (document : Text) : Except LoadError Vocabulary :=
  match Json.parse document with
  | .error f => .error (.malformed f)
  | .ok (.object members) =>
    match members.foldlM addMember empty with
    | .ok v => .ok v
    | .error e => .error (.misshapen e)
  | .ok _ => .error .notAnObject

end Vocabulary

end ClassList
