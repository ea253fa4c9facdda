-- The rules of a text, the rules at an offset, and the rule being typed.
import ClassList.Rule.Basic

namespace ClassList

namespace Tree

/-- The rules of a tree, in source order. -/
def rules (t : Tree) : List Rule := t.terminals.map Rule.ofNode

/-- The innermost group around an offset, the root past the end of the text. -/
def groupAt (t : Tree) (n : Nat) : Node :=
  (t.nodes.filter fun m => m.item.isGroup && m.span.contains n).getLast?.getD t.root

end Tree

namespace Text

/-- Every rule of a text, in source order. -/
def rules (t : Text) : List Rule := (Tree.ofText t).rules

/-- The rules that the text at an offset belongs to. Where there is none, as
between two words, all rules of the innermost group. -/
def rulesAt (n : Nat) (t : Text) : List Rule :=
  let rules := t.rules
  if rules.any (·.isAt n) then rules.filter (·.isAt n)
  else
    let group := (Tree.ofText t).groupAt n
    rules.filter fun r => r.spans.any group.span.encloses

/-- The rule being typed at an offset. It ends there, whatever follows. -/
def ruleTyped (n : Nat) (t : Text) : Rule :=
  let tree := Tree.ofTextUpTo n t
  if tree.last.item.identifier?.isSome then .ofNode tree.last
  else .ofNode (Tree.placeholder tree.fresh tree.last)

end Text

end ClassList
