-- What a reader sees about the rule at an offset.
import ClassList.Rule.Query
import ClassList.Vocabulary.Basic

namespace ClassList

structure Hover where
  value : Text
  /-- From the first to the last place of the rule, with everything between them. -/
  range : Span
  css : Option Text
deriving DecidableEq

/-- The range around all places of a rule. -/
def Rule.extent? (r : Rule) : Option Span :=
  match r.spans with
  | [] => none
  | s :: rest => some (rest.foldl Span.cover s)

/-- The first of some rules that the text at an offset belongs to, with the
declarations that the given function finds for it. -/
def hoverAmong? (rules : List Rule) (n : Nat) (css : Rule → Option Text) : Option Hover := do
  let r ← rules.find? (·.isAt n)
  let range ← r.extent?
  return ⟨r.value, range, css r⟩

/-- What is shown at an offset of a text. -/
def Text.hover? (t : Text) (n : Nat) (css : Rule → Option Text) : Option Hover :=
  hoverAmong? t.rules n css

end ClassList
