-- Ranges and rules as JSON.
import ClassList.Json.Basic
import ClassList.Rule.Basic

namespace ClassList

/-- A range as an array of its two ends. -/
def Span.toJson (s : Span) : Json := .array [.ofNat s.start, .ofNat s.stop]

def PlacedVariant.toJson (v : PlacedVariant) : Json :=
  .fields [
    ("raw", .string v.raw),
    ("value", .string v.value),
    ("name", .string v.name),
    ("loc", v.loc.toJson)]

def Rule.toJson (r : Rule) : Json :=
  .fields [
    ("raw", .string r.raw),
    ("value", .string r.value),
    ("name", .string r.name),
    ("prefix", .string r.outer),
    ("negated", .bool r.negated),
    ("important", .bool r.important),
    ("variants", .array (r.variants.map (·.toJson))),
    ("loc", r.loc.toJson),
    ("spans", .array (r.spans.map (·.toJson)))]

end ClassList
