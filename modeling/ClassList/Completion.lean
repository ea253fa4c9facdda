-- What may be typed at an offset.
import ClassList.Rule.Query
import ClassList.Vocabulary.Basic

namespace ClassList

/-! ## Natural order -/

namespace Text

/-- Digits filled up with zeros in front to eight places. Of a longer row only
the last eight digits count. -/
def padDigits (digits : Text) : Text :=
  let padded := List.replicate (8 - digits.length) '0' ++ digits
  padded.drop (padded.length - 8)

/-- The key of the characters so far and the row of digits that is not in it yet. -/
structure NaturalKey where
  key : Text
  digits : Text
deriving DecidableEq

namespace NaturalKey

/-- Takes the row of digits into the key. -/
def flush (k : NaturalKey) : Text := if k.digits.isEmpty then k.key else k.key ++ padDigits k.digits

/-- Takes in a character. A NUL ends a row of digits and leaves no trace. -/
def step (k : NaturalKey) (c : Char) : NaturalKey :=
  if c.isDigit then { k with digits := k.digits ++ [c] }
  else { key := if c = '\x00' then k.flush else k.flush ++ [c], digits := [] }

end NaturalKey

/-- A text that sorts by code points as the given one sorts by the numbers in
it: `ring-2` comes before `ring-10`. -/
def naturalKey (t : Text) : Text := (t.foldl NaturalKey.step ⟨[], []⟩).flush

end Text

/-! ## Completions -/

inductive CompletionKind where
  | screen
  | variant
  /-- A name that opens a group. -/
  | directiveGroup
  | directive
  /-- The name of the groups around. -/
  | selfReference
deriving DecidableEq

def CompletionKind.name : CompletionKind → String
  | screen => "screen"
  | variant => "variant"
  | directiveGroup => "directive-group"
  | directive => "directive"
  | selfReference => "self-reference"

structure Completion where
  kind : CompletionKind
  /-- The text to put in. -/
  label : Text
  /-- The place in the list: completions are sorted by it. -/
  sortText : Text
  detail : Option Text
  /-- The text that the label takes the place of. -/
  range : Span
deriving DecidableEq

/-- A name as it is written in the groups of an outer name. Nothing is left of
the outer name itself. -/
def relativeName? (outer key : Text) : Option Text :=
  if outer.isEmpty then if key.isEmpty then none else some key
  else
    match key.dropStart? outer with
    | some ('-' :: rest) => if rest.isEmpty then none else some rest
    | some _ => none
    | none => some key

namespace Vocabulary

/-- The screens that the typed word starts. Only the first variant of a rule may
be one. -/
def screenCompletions (voc : Vocabulary) (r : Rule) : List Completion :=
  if r.variants.isEmpty then
    (voc.screens.filter fun s => r.raw.isPrefixOf s.1).map fun s =>
      ⟨.screen, s.1 ++ [':'], '@' :: s.1, some ("breakpoint @ ".toList ++ s.2), r.loc⟩
  else []

/-- The variants that the typed word starts and that the rule does not have. -/
def variantCompletions (voc : Vocabulary) (r : Rule) : List Completion :=
  (voc.variants.filter fun v => r.raw.isPrefixOf v && !r.variants.any (·.name == v)).map fun v =>
    ⟨.variant, v ++ [':'], ':' :: v, none, r.loc⟩

/-- The utilities that the typed name starts. -/
def keys (voc : Vocabulary) (r : Rule) : List Text :=
  (voc.utilities.map Utility.value).filter r.bareName.isPrefixOf

/-- A key up to the first `-` behind the typed name: `ring-off` leads to
`ring-offset`. -/
def groupOf? (typed key : Text) : Option Text :=
  let rest := key.drop typed.length
  if rest.contains '-' then some (typed ++ rest.takeWhile (· ≠ '-')) else none

/-- The groups of the keys, each one once. -/
def groups (voc : Vocabulary) (r : Rule) : List Text :=
  ((voc.keys r).filterMap (groupOf? r.bareName)).eraseDups

def groupCompletions (voc : Vocabulary) (r : Rule) : List Completion :=
  (voc.groups r).filterMap fun g => (relativeName? r.bareOuter g).map fun label =>
    ⟨.directiveGroup, label, '#' :: g, some (g ++ "(...)".toList), r.loc⟩

def directiveCompletions (voc : Vocabulary) (r : Rule) : List Completion :=
  (voc.keys r).filterMap fun key => (relativeName? r.bareOuter key).map fun label =>
    ⟨.directive, label, '$' :: key.naturalKey, some key, r.loc⟩

/-- The outer name itself, as long as nothing else is typed. -/
def selfCompletions (r : Rule) : List Completion :=
  if !r.bareOuter.isEmpty && (r.raw.isEmpty || r.raw == ['&']) then
    [⟨.selfReference, ['&'], ['&'], some r.bareOuter, r.loc⟩]
  else []

/-- All completions of a rule that is being typed, before they are sorted. -/
def offers (voc : Vocabulary) (r : Rule) : List Completion :=
  voc.screenCompletions r ++ voc.variantCompletions r ++ voc.groupCompletions r ++
    voc.directiveCompletions r ++ selfCompletions r

/-- The completions at an offset, sorted by their sort texts. Those with the same
sort text keep their order. -/
def completions (voc : Vocabulary) (t : Text) (n : Nat) : List Completion :=
  (voc.offers (t.ruleTyped n)).mergeSort fun a b => a.sortText.le b.sortText

end Vocabulary

end ClassList
