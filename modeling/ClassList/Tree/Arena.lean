-- The tree as it is stored. Each node has the numbers of its neighbours and of its parent,
-- and no node is ever taken out: one that is cut off is only not met any more.
import ClassList.Tree.Basic

namespace ClassList

/-- A stored node: what it is, where it stands, and the numbers of the node in front of it,
of the node behind it and of the node around it. -/
structure Cell where
  kind : Kind
  span : Span
  prev : Option Nat
  next : Option Nat
  parent : Option Nat
deriving DecidableEq

/-- The item of a stored node. -/
def Cell.item (c : Cell) (id : Nat) : Item := ⟨id, c.kind, c.span.start⟩

/-- The stored nodes. The number of a node is its place among them. -/
structure Arena where
  cells : Array Cell
deriving DecidableEq

namespace Arena

/-- The root alone, in a text of a given size. -/
def root (size : Nat) : Arena := ⟨#[⟨.group, ⟨0, size⟩, none, none, none⟩]⟩

/-! ## Looking up -/

/-- The number that the next new node gets. -/
def fresh (a : Arena) : Nat := a.cells.size

def cell? (a : Arena) (id : Nat) : Option Cell := a.cells[id]?

def item? (a : Arena) (id : Nat) : Option Item := (a.cell? id).map (·.item id)

def prevOf? (a : Arena) (id : Nat) : Option Nat := (a.cell? id).bind (·.prev)

def nextOf? (a : Arena) (id : Nat) : Option Nat := (a.cell? id).bind (·.next)

def parentOf? (a : Arena) (id : Nat) : Option Nat := (a.cell? id).bind (·.parent)

def isGroup (a : Arena) (id : Nat) : Bool := (a.item? id).any Item.isGroup

/-! ## Changes -/

/-- Changes one stored node. -/
def modify (a : Arena) (id : Nat) (f : Cell → Cell) : Arena :=
  match a.cell? id with
  | some c => ⟨a.cells.setIfInBounds id (f c)⟩
  | none => a

/-- Stores a node behind another one. What followed that one is cut off. -/
def attach (a : Arena) (before parent : Nat) (kind : Kind) (span : Span) : Arena :=
  let stored : Arena := ⟨a.cells.push ⟨kind, span, some before, none, some parent⟩⟩
  stored.modify before fun c => { c with next := some a.fresh }

/-- Lets a node reach to an offset. -/
def stretch (a : Arena) (id stop : Nat) : Arena :=
  a.modify id fun c => { c with span := ⟨c.span.start, stop⟩ }

/-- Stores an empty open identifier right behind a node and nested in it. There is none if
no node has the number. -/
def appendPlaceholder? (a : Arena) (id : Nat) : Option Arena :=
  (a.cell? id).map fun c => a.attach id id (.identifier ⟨[], false⟩) ⟨c.span.stop, c.span.stop⟩

/-! ## Following links -/

/-- The numbers that links lead through, from a number on. Links that never end are followed
for so many numbers only. -/
def follow (link : Nat → Option Nat) : Nat → Nat → List Nat
  | 0, _ => []
  | count + 1, id => id :: (link id).elim [] (follow link count)

/-- The nodes in source order, starting with the root. -/
def walk (a : Arena) : List Nat := follow a.nextOf? a.fresh 0

/-- The last node in source order. -/
def last (a : Arena) : Nat := a.walk.getLast?.getD 0

/-- A node, its parent, and so on up to the root. -/
def ancestors (a : Arena) (id : Nat) : List Nat := follow a.parentOf? a.fresh id

/-! ## The tree in the arena -/

/-- A node with the items around it. -/
def node? (a : Arena) (id : Nat) : Option Node := do
  let c ← a.cell? id
  let scopes ← (a.ancestors id).tail.mapM a.item?
  return { item := c.item id, scopes, stop := c.span.stop }

/-- The tree that the links lead through. -/
def tree? (a : Arena) : Option Tree := do
  let root ← a.node? 0
  let inner ← a.walk.tail.mapM a.node?
  return { root, inner, fresh := a.fresh }

end Arena

end ClassList
