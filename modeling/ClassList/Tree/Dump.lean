-- A tree as lines of text, one line for each node, for a reader's eyes.
import ClassList.Text.Quoted
import ClassList.Tree.Basic

namespace ClassList

/-- A range as `3..7`. -/
def Span.dump (s : Span) : Text := .ofNat s.start ++ ['.', '.'] ++ .ofNat s.stop

/-- The marks of an identifier, each behind a blank. -/
def Identifier.flags (i : Identifier) : Text :=
  (if i.important then " important".toList else []) ++
  (if i.negated then " negated".toList else []) ++
  (if i.closed then " terminator".toList else [])

namespace Node

/-- The line of a node without its indent. -/
def label (n : Node) : Text :=
  match n.item.kind with
  | .group => "GROUP@".toList ++ n.span.dump
  | .variant v => "VARIANT@".toList ++ n.span.dump ++ ' ' :: v.raw.quoted
  | .identifier i => "IDENTIFIER@".toList ++ n.span.dump ++ ' ' :: i.raw.quoted ++ i.flags

/-- The line of a node, two blanks further right than its parent's. -/
def dump (n : Node) : Text :=
  List.replicate (2 * n.scopes.length) ' ' ++ n.label ++ ['\n']

end Node

/-- One line for each node, in source order. -/
def Tree.dump (t : Tree) : Text := t.nodes.flatMap Node.dump

end ClassList
