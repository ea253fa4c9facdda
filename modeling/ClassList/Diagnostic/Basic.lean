-- Messages about a place of a text, and the checks of a class list.
import ClassList.Rule.Query
import ClassList.Vocabulary.Basic

namespace ClassList

/-! ## Diagnostics -/

inductive Level where
  | error
  | warning
  | info
  | note
  | help
deriving DecidableEq

def Level.name : Level → String
  | error => "error"
  | warning => "warning"
  | info => "info"
  | note => "note"
  | help => "help"

/-- A message about a place of a text. -/
structure Diagnostic where
  level : Level
  message : Text
  range : Span
deriving DecidableEq

/-! ## Findings -/

/-- What may be wrong with a rule. -/
inductive Problem where
  | unknownVariant (value : Text)
  | unknownDirective (name : Text)
deriving DecidableEq

def Problem.message : Problem → Text
  | unknownVariant value => "unknown variant `".toList ++ value ++ ['`']
  | unknownDirective name => "unknown directive `".toList ++ name ++ ['`']

/-- A problem and its place. -/
structure Finding where
  problem : Problem
  range : Span
deriving DecidableEq

/-- Every finding is a warning. -/
def Finding.toDiagnostic (f : Finding) : Diagnostic := ⟨.warning, f.problem.message, f.range⟩

/-- The findings so far, and the places of the variants among them. -/
structure Review where
  seen : List Span
  findings : List Finding
deriving DecidableEq

namespace Review

def empty : Review := ⟨[], []⟩

/-- Looks at a variant. One that holds for several rules is reported once. -/
def addVariant (voc : Vocabulary) (w : Review) (v : PlacedVariant) : Review :=
  if voc.knowsVariant v.name || w.seen.contains v.loc then w
  else
    { seen := v.loc :: w.seen
      findings := w.findings ++ [⟨.unknownVariant v.value, v.loc⟩] }

/-- Looks at the variants of a rule and then at its name. -/
def addRule (voc : Vocabulary) (w : Review) (r : Rule) : Review :=
  let w := r.variants.foldl (addVariant voc) w
  if voc.knowsUtility r.bareName then w
  else { w with findings := w.findings ++ [⟨.unknownDirective r.name, r.loc⟩] }

end Review

namespace Vocabulary

/-- The variants and names of the rules that the vocabulary does not know. -/
def review (voc : Vocabulary) (rules : List Rule) : List Finding :=
  (rules.foldl (Review.addRule voc) .empty).findings

/-- The diagnostics of a text. -/
def diagnostics (voc : Vocabulary) (t : Text) : List Diagnostic :=
  (voc.review t.rules).map Finding.toDiagnostic

end Vocabulary

end ClassList
