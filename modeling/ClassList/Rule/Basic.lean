-- Rules. A rule is one utility with everything that the groups around it
-- add: `sm:(-mx(2))` holds the rule `sm:-mx-2`.
import ClassList.Tree.Scan

namespace ClassList

/-! ## Rules -/

/-- A variant of a rule and where it stands. -/
structure PlacedVariant extends Variant where
  loc : Span
deriving DecidableEq

/-- A utility, taken out of its groups. -/
structure Rule where
  /-- The source text of the last identifier. -/
  raw : Text
  /-- The names of all identifiers around it and its own, outermost first. -/
  names : List Text
  /-- One of them has a `-` in front. -/
  negated : Bool
  /-- One of them is marked with `!`. -/
  important : Bool
  /-- The variants around it, outermost first. -/
  variants : List PlacedVariant
  /-- Where the last identifier stands. -/
  loc : Span
  /-- The places in the source that make up the rule, in order. Places that
  touch are one. -/
  spans : List Span
deriving DecidableEq

namespace Rule

/-- Names joined by `-`. A `&` stands for the names in front of it and adds
nothing of its own, and neither does an empty name. -/
def joinNames (names : List Text) : Text :=
  ['-'].intercalate (names.filter fun n => n ≠ ['&'] ∧ n ≠ [])

/-- A `-` in front of a name. -/
def signed (negated : Bool) (name : Text) : Text := if negated then '-' :: name else name

/-- The full name without the `-` of a negated rule. -/
def bareName (r : Rule) : Text := joinNames r.names

/-- The full name. -/
def name (r : Rule) : Text := signed r.negated r.bareName

/-- The name of what is around the rule, without the `-` of a negated rule. -/
def bareOuter (r : Rule) : Text := joinNames r.names.dropLast

/-- The name of what is around the rule. It is empty, also for a negated rule,
when there is nothing. -/
def outer (r : Rule) : Text := signed (r.negated && !r.bareOuter.isEmpty) r.bareOuter

/-- The rule written without groups: `sm:!-mx-2`. -/
def value (r : Rule) : Text :=
  r.variants.flatMap (·.value) ++ (if r.important then ['!'] else []) ++ r.name

/-- The rule is made up of the text at an offset, among others. -/
def isAt (r : Rule) (n : Nat) : Bool := r.spans.any (·.contains n)

/-! ## The rule of a chain -/

/-- A word in front of the given places. It joins the first of them if they
touch. -/
def addSpan (spans : List Span) (s : Span) : List Span :=
  match spans with
  | [] => [s]
  | first :: rest =>
    if first.start = s.stop then ⟨s.start, first.stop⟩ :: rest else s :: first :: rest

/-- The variant of an item, if it is one. -/
def variantOf? (i : Item) : Option PlacedVariant :=
  match i.kind with
  | .variant v => some { v with loc := i.span }
  | _ => none

/-- The rule that an identifier ends, from the items around it. -/
def ofChain (last : Item) (scopes : List Item) : Rule :=
  let chain := last :: scopes
  let identifiers := chain.filterMap Item.identifier?
  { raw := last.raw
    names := (identifiers.map Identifier.name).reverse
    negated := identifiers.any Identifier.negated
    important := identifiers.any Identifier.important
    variants := (chain.filterMap variantOf?).reverse
    loc := last.span
    spans := ((chain.filter (!·.isGroup)).map Item.span).foldl addSpan [] }

/-- The rule that a node ends. -/
def ofNode (n : Node) : Rule := ofChain n.item n.scopes

end Rule

end ClassList
