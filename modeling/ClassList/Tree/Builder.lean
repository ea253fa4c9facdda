-- Storing the nodes of a text while it is read. A builder holds no list of the items around
-- a word: it knows the number of the innermost one and finds the others by their parents.
import ClassList.Tree.Arena
import ClassList.Tree.Scan

namespace ClassList

/-- What is known between two characters. -/
structure Builder where
  arena : Arena
  /-- The group, the variant or the outer name around the word. -/
  parent : Nat
  /-- The node that was stored last. -/
  latest : Nat
  /-- The characters of the word being read. -/
  word : Text
  /-- Where that word starts. -/
  start : Nat
  mode : Mode
deriving DecidableEq

namespace Builder

/-- In front of the first character of a text of a given size. -/
def init (size : Nat) : Builder where
  arena := .root size
  parent := 0
  latest := 0
  word := []
  start := 0
  mode := .plain

/-- The offset of the next character. -/
def offset (b : Builder) : Nat := b.start + b.word.size

/-- The latest node is a variant, so a name has to follow even if it is empty. -/
def awaitsName (b : Builder) : Bool := (b.arena.item? b.latest).any Item.isVariant

/-! ## Nodes -/

/-- Stores a node behind the latest one. -/
def append (b : Builder) (kind : Kind) (span : Span) : Builder :=
  { b with arena := b.arena.attach b.latest b.parent kind span, latest := b.arena.fresh }

/-- Stores a node and goes into it. -/
def enter (b : Builder) (kind : Kind) (span : Span) : Builder :=
  { b.append kind span with parent := b.arena.fresh }

/-- Starts an empty word at an offset. -/
def restart (b : Builder) (start : Nat) : Builder :=
  { b with word := [], start := start, mode := .plain }

/-- Takes a character into the word. -/
def push (b : Builder) (c : Char) : Builder := { b with word := b.word ++ [c] }

/-! ## Words -/

/-- Ends the word as a variant, and its `!` as an identifier of its own. -/
def endVariant (b : Builder) : Builder :=
  match b.word with
  | '!' :: rest =>
    ((b.enter (.identifier ⟨['!'], false⟩) ⟨b.start, b.start + 1⟩).enter
      (.variant ⟨rest⟩) (.ofText (b.start + 1) rest)).restart b.offset
  | raw => (b.enter (.variant ⟨raw⟩) (.ofText b.start raw)).restart b.offset

/-- Ends the word as a closed identifier and goes into that. There is none without a word,
except behind a variant. -/
def endIdentifier (b : Builder) : Builder :=
  if b.word.isEmpty && !b.awaitsName then b
  else b.enter (.identifier ⟨b.word, true⟩) (.ofText b.start b.word)

/-- Ends the word in front of an opening parenthesis. -/
def endOuter (b : Builder) : Builder :=
  if b.word.isEmpty then b else b.enter (.identifier ⟨b.word, false⟩) (.ofText b.start b.word)

/-- Ends the word as the last node of a reading. -/
def endText (b : Builder) (closed : Bool) : Builder :=
  b.append (.identifier ⟨b.word, closed⟩) (.ofText b.start b.word)

/-! ## Scopes -/

/-- Goes out to the innermost group. -/
def leaveWords (b : Builder) : Builder :=
  { b with parent := ((b.arena.ancestors b.parent).find? b.arena.isGroup).getD 0 }

/-- Closes the group, which stops at an offset, and goes out of it. The root stays open. -/
def leaveGroup (b : Builder) (stop : Nat) : Builder :=
  if b.parent = 0 then b
  else
    { b with
      arena := b.arena.stretch b.parent stop
      parent := (b.arena.parentOf? b.parent).getD 0 }

/-! ## One character -/

/-- A character outside square brackets. -/
def read (b : Builder) (c : Char) : Builder :=
  let next := b.offset + c.utf8Size
  match Delimiter.ofChar? c with
  | some .colon => if b.word.isEmpty then b.restart next else { b.push c with mode := .colon }
  | some .opening => (b.endOuter.enter .group ⟨b.offset, b.offset + 1⟩).restart next
  | some .closing => (b.endIdentifier.leaveWords.leaveGroup next).restart next
  | some .blank => b.endIdentifier.leaveWords.restart next
  | none => { b.push c with mode := if c = '[' then .bracket else .plain }

/-- A character. -/
def step (b : Builder) (c : Char) : Builder :=
  match b.mode with
  | .plain => b.read c
  | .bracket => { b.push c with mode := if c = ']' then .plain else .bracket }
  | .colon => if c = ':' then (b.push c).endVariant else b.endVariant.read c

/-- All characters of a text that is part of a text of a given size. -/
def run (size : Nat) (t : Text) : Builder := t.foldl step (init size)

theorem run_append (size : Nat) (a b : Text) : run size (a ++ b) = b.foldl step (run size a) := by
  simp [run, List.foldl_append]

/-! ## The end -/

/-- Ends a variant that could have taken a second colon. -/
def settle (b : Builder) : Builder := if b.mode = .colon then b.endVariant else b

/-- The end of a reading: the end of the text, or a stop, where the word is a name even if it
is empty. -/
def atEnd (stop : Option Nat) (t : Text) : Builder :=
  match stop with
  | none =>
    let b := (run t.size t).settle
    if b.word.isEmpty && !b.awaitsName then b else b.endText true
  | some n => (run t.size (t.upTo n)).settle.endText (t.upTo n = t)

/-- Groups that are still open reach as far as the root. -/
def finish (b : Builder) : Arena :=
  match b.arena.cell? 0 with
  | some root =>
    ((b.arena.ancestors b.parent).filter b.arena.isGroup).foldl
      (fun a id => a.stretch id root.span.stop) b.arena
  | none => b.arena

end Builder

/-- What is stored for a text that is read to its end or up to a stop. -/
def Arena.ofTextTo (stop : Option Nat) (t : Text) : Arena := (Builder.atEnd stop t).finish

end ClassList
