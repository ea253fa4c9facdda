-- The tree of a class list. Its nodes stand in one list in source order, and
-- each node knows the chain of items around it.
import ClassList.Span
import ClassList.Token

namespace ClassList

/-! ## Items -/

/-- What an item is: a group in parentheses, or a word. -/
inductive Kind where
  | group
  | variant (v : Variant)
  | identifier (i : Identifier)
deriving DecidableEq

/-- An item of the source: its number, what it is and the offset where it
starts. Items are numbered in the order in which they are found. -/
structure Item where
  id : Nat
  kind : Kind
  start : Nat
deriving DecidableEq

namespace Item

/-- The group that holds the whole text. -/
def root : Item := ⟨0, .group, 0⟩

def isGroup (i : Item) : Bool :=
  match i.kind with
  | .group => true
  | _ => false

def isVariant (i : Item) : Bool :=
  match i.kind with
  | .variant _ => true
  | _ => false

def identifier? (i : Item) : Option Identifier :=
  match i.kind with
  | .identifier w => some w
  | _ => none

/-- The source text of a word; a group has none of its own. -/
def raw (i : Item) : Text :=
  match i.kind with
  | .group => []
  | .variant v => v.raw
  | .identifier w => w.raw

/-- Where a word stands. -/
def span (i : Item) : Span := .ofText i.start i.raw

end Item

/-- An item together with the items around it, innermost first. The root is
the last of them, and has none itself. -/
structure Placed where
  item : Item
  scopes : List Item
deriving DecidableEq

namespace Placed

/-- The item and the items around it, up to the root. -/
def chain (p : Placed) : List Item := p.item :: p.scopes

end Placed

/-! ## Nodes -/

/-- A placed item and where it stops: a word behind its last character, a
group behind its closing parenthesis. -/
structure Node extends Placed where
  stop : Nat
deriving DecidableEq

namespace Node

def id (n : Node) : Nat := n.item.id

def span (n : Node) : Span := ⟨n.item.start, n.stop⟩

/-- The number of the item around the node. -/
def parent? (n : Node) : Option Nat := n.scopes.head?.map Item.id

/-- The node's own number, its parent's, and so on up to the root. -/
def ancestors (n : Node) : List Nat := n.chain.map Item.id

/-- The node is a closed identifier, so it ends a rule. -/
def isTerminal (n : Node) : Bool := n.item.identifier?.any Identifier.closed

end Node

/-! ## Trees -/

/-- The root, the other nodes in source order, and the number that the next
new node gets. -/
structure Tree where
  root : Node
  inner : List Node
  fresh : Nat
deriving DecidableEq

namespace Tree

/-- All nodes in source order. -/
def nodes (t : Tree) : List Node := t.root :: t.inner

/-- The last node in source order. -/
def last (t : Tree) : Node := t.inner.getLast?.getD t.root

/-- The node with a number. -/
def node? (t : Tree) (id : Nat) : Option Node := t.nodes.find? (·.id == id)

/-- The nodes that end a rule. -/
def terminals (t : Tree) : List Node := t.nodes.filter Node.isTerminal

/-- The thread through a tree: each node with the number of the node before it and of the node
after it. -/
def threaded (t : Tree) : List (Node × Option Nat × Option Nat) :=
  let ids := t.nodes.map fun n => some n.id
  t.nodes.zip ((none :: ids).zip (ids.tail ++ [none]))

/-- An empty open identifier right behind a node and nested in it. -/
def placeholder (id : Nat) (n : Node) : Node :=
  { item := ⟨id, .identifier ⟨[], false⟩, n.stop⟩, scopes := n.chain, stop := n.stop }

/-- The tree with a placeholder behind the node with the given number, in place of all nodes
that followed it. Their numbers stay taken. A number that no node has gives nothing. -/
def appendPlaceholder? (t : Tree) (id : Nat) : Option Tree :=
  (t.node? id).map fun n =>
    { t with
      inner := (t.nodes.takeWhile (·.id != id) ++ [n, placeholder t.fresh n]).tail
      fresh := t.fresh + 1 }

end Tree

end ClassList
