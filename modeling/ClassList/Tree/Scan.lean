-- Reading a text into a tree, one character at a time. Every text has a
-- tree: a delimiter that fits nowhere is dropped.
import ClassList.Tree.Basic

namespace ClassList

/-! ## Delimiters -/

/-- What a character does outside square brackets, unless it belongs to a word. -/
inductive Delimiter where
  | colon
  | opening
  | closing
  | blank
deriving DecidableEq

def Delimiter.ofChar? : Char → Option Delimiter
  | ':' => some .colon
  | '(' => some .opening
  | ')' => some .closing
  | ' ' | '\t' | '\n' | '\r' => some .blank
  | _ => none

/-! ## The state of a scan -/

/-- How the next character is read. -/
inductive Mode where
  /-- Outside square brackets. -/
  | plain
  /-- Inside square brackets, where every character belongs to the word. -/
  | bracket
  /-- Right behind the first colon of a variant, which a second one may follow. -/
  | colon
deriving DecidableEq

/-- What a scan knows between two characters. -/
structure Scan where
  /-- The characters of the word being read. -/
  word : Text
  /-- Where that word starts. -/
  start : Nat
  mode : Mode
  /-- The items around the word, innermost first. -/
  scopes : List Item
  /-- Everything found so far but the root, the latest first. -/
  placed : List Placed
  /-- The numbers of the closed groups and the offsets behind their parentheses. -/
  closed : List (Nat × Nat)
deriving DecidableEq

namespace Scan

/-- The scan in front of the first character. -/
def init : Scan where
  word := []
  start := 0
  mode := .plain
  scopes := [.root]
  placed := []
  closed := []

/-- The offset of the next character. -/
def offset (s : Scan) : Nat := s.start + s.word.size

/-- The latest item is a variant, so a name has to follow even if it is empty. -/
def awaitsName (s : Scan) : Bool := s.placed.head?.any (·.item.isVariant)

/-! ## Items -/

/-- The next item, which gets the next number. -/
def item (s : Scan) (kind : Kind) (start : Nat) : Item := ⟨s.placed.length + 1, kind, start⟩

/-- Records an item in the scopes of the scan. -/
def place (s : Scan) (kind : Kind) (start : Nat) : Scan :=
  { s with placed := ⟨s.item kind start, s.scopes⟩ :: s.placed }

/-- Records an item and makes it the innermost scope. -/
def enter (s : Scan) (kind : Kind) (start : Nat) : Scan :=
  { s.place kind start with scopes := s.item kind start :: s.scopes }

/-- Starts an empty word at an offset. -/
def restart (s : Scan) (start : Nat) : Scan := { s with word := [], start := start, mode := .plain }

/-- Takes a character into the word. -/
def push (s : Scan) (c : Char) : Scan := { s with word := s.word ++ [c] }

/-! ## Words -/

/-- Ends the word as a variant. In `!hover:` the mark is an item of its own, so
that it applies to everything below the variant. -/
def endVariant (s : Scan) : Scan :=
  match s.word with
  | '!' :: rest =>
    ((s.enter (.identifier ⟨['!'], false⟩) s.start).enter
      (.variant ⟨rest⟩) (s.start + 1)).restart s.offset
  | raw => (s.enter (.variant ⟨raw⟩) s.start).restart s.offset

/-- Ends the word as a closed identifier. There is none without a word, except
behind a variant. -/
def endIdentifier (s : Scan) : Scan :=
  if s.word.isEmpty && !s.awaitsName then s else s.place (.identifier ⟨s.word, true⟩) s.start

/-- Ends the word in front of an opening parenthesis, where it is the outer
name of everything in the group. -/
def endOuter (s : Scan) : Scan :=
  if s.word.isEmpty then s else s.enter (.identifier ⟨s.word, false⟩) s.start

/-! ## Scopes -/

/-- Variants and outer names reach up to the next blank of their group. -/
def leaveWords (s : Scan) : Scan := { s with scopes := s.scopes.dropWhile (!·.isGroup) }

/-- Closes the innermost group, which stops at an offset. The root stays open. -/
def leaveGroup (s : Scan) (stop : Nat) : Scan :=
  match s.scopes with
  | g :: outer :: rest => { s with scopes := outer :: rest, closed := (g.id, stop) :: s.closed }
  | _ => s

/-! ## One character -/

/-- A character outside square brackets. -/
def read (s : Scan) (c : Char) : Scan :=
  let next := s.offset + c.utf8Size
  match Delimiter.ofChar? c with
  | some .colon => if s.word.isEmpty then s.restart next else { s.push c with mode := .colon }
  | some .opening => (s.endOuter.enter .group s.offset).restart next
  | some .closing => (s.endIdentifier.leaveWords.leaveGroup next).restart next
  | some .blank => s.endIdentifier.leaveWords.restart next
  | none => { s.push c with mode := if c = '[' then .bracket else .plain }

/-- A character. -/
def step (s : Scan) (c : Char) : Scan :=
  match s.mode with
  | .plain => s.read c
  | .bracket => { s.push c with mode := if c = ']' then .plain else .bracket }
  | .colon => if c = ':' then (s.push c).endVariant else s.endVariant.read c

/-- All characters of a text. -/
def run (t : Text) : Scan := t.foldl step init

theorem run_append (a b : Text) : run (a ++ b) = b.foldl step (run a) := by
  simp [run, List.foldl_append]

/-! ## The tree -/

/-- Ends a variant that could have taken a second colon. -/
def settle (s : Scan) : Scan := if s.mode = .colon then s.endVariant else s

/-- Where a placed item stops, in a text of a given size. A group that was
never closed reaches to the end of the text. -/
def stopOf (s : Scan) (size : Nat) (i : Item) : Nat :=
  match i.kind with
  | .group => (s.closed.lookup i.id).getD size
  | _ => i.span.stop

/-- The tree of everything found, in a text of a given size. -/
def tree (s : Scan) (size : Nat) : Tree where
  root := ⟨⟨.root, []⟩, size⟩
  inner := s.placed.reverse.map fun p => { p with stop := s.stopOf size p.item }
  fresh := s.placed.length + 1

end Scan

namespace Tree

/-- The tree of a text. -/
def ofText (t : Text) : Tree := (Scan.run t).settle.endIdentifier.tree t.size

/-- The tree of a text that is read only up to an offset, with the word in
front of that offset as its last node: what someone is typing there. -/
def ofTextUpTo (n : Nat) (t : Text) : Tree :=
  let s := (Scan.run (t.upTo n)).settle
  (s.place (.identifier ⟨s.word, t.upTo n = t⟩) s.start).tree t.size

end Tree

end ClassList
