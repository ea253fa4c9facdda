-- Reading, asking and showing with every operation checked. An offset has 32 bits, the
-- ends of a range are in order, and a text is cut between two characters only.
-- Where an operation does not apply there is no answer at all.
import ClassList.Completion
import ClassList.Diagnostic.Render
import ClassList.Hover
import ClassList.Tree.Builder

namespace ClassList.Checked

/-! ## Offsets -/

/-- The first number that is too large for an offset. -/
def limit : Nat := 4294967296

def offset? (n : Nat) : Option Nat := if n < limit then some n else none

def add? (m n : Nat) : Option Nat := offset? (m + n)

def sub? (m n : Nat) : Option Nat := if n ≤ m then some (m - n) else none

/-- The number of bytes of a text. -/
def size? (t : Text) : Option Nat := offset? t.size

/-! ## Ranges and parts of a text -/

def range? (start stop : Nat) : Option Span := if start ≤ stop then some ⟨start, stop⟩ else none

/-- The range of so many bytes. -/
def rangeAt? (start count : Nat) : Option Span := do range? start (← add? start count)

/-- The text in front of an offset. -/
def upTo? (n : Nat) (t : Text) : Option Text := if t.isBoundary n then some (t.upTo n) else none

/-- The text behind an offset. -/
def after? (n : Nat) (t : Text) : Option Text := if t.isBoundary n then some (t.after n) else none

/-- The text in a range. -/
def slice? (s : Span) (t : Text) : Option Text := do after? s.start (← upTo? s.stop t)

/-! ## Words and groups -/

/-- The range of the word being read. -/
def wordRange? (b : Builder) : Option Span := do rangeAt? b.start (← size? b.word)

/-- Ends the word as the last node of a reading. -/
def endText? (b : Builder) (closed : Bool) : Option Builder := do
  let range ← wordRange? b
  return b.append (.identifier ⟨b.word, closed⟩) range

def endIdentifier? (b : Builder) : Option Builder :=
  if b.word.isEmpty && !b.awaitsName then some b
  else do
    let range ← wordRange? b
    return b.enter (.identifier ⟨b.word, true⟩) range

def endOuter? (b : Builder) : Option Builder :=
  if b.word.isEmpty then some b
  else do
    let range ← wordRange? b
    return b.enter (.identifier ⟨b.word, false⟩) range

/-- Ends the word as a variant, in front of the given offset. -/
def endVariant? (b : Builder) (next : Nat) : Option Builder :=
  match b.word with
  | '!' :: rest => do
    let bang ← rangeAt? b.start 1
    let start ← add? b.start 1
    let range ← rangeAt? start (← size? rest)
    return ((b.enter (.identifier ⟨['!'], false⟩) bang).enter (.variant ⟨rest⟩) range).restart next
  | raw => do
    let range ← wordRange? b
    return (b.enter (.variant ⟨raw⟩) range).restart next

/-- Lets a node reach to an offset. -/
def stretch? (a : Arena) (id stop : Nat) : Option Arena := do
  let c ← a.cell? id
  let range ← range? c.span.start stop
  return a.stretch id range.stop

def leaveGroup? (b : Builder) (stop : Nat) : Option Builder :=
  if b.parent = 0 then some b
  else do
    let arena ← stretch? b.arena b.parent stop
    return { b with arena := arena, parent := (b.arena.parentOf? b.parent).getD 0 }

/-! ## Reading -/

/-- The offset in front of what is left of a text of the given size. -/
def cursor? (size : Nat) (rest : Text) : Option Nat := do sub? size (← size? rest)

/-- A character outside square brackets that ends no variant, in front of the given
offset. -/
def read? (b : Builder) (c : Char) (next : Nat) : Option Builder :=
  match Delimiter.ofChar? c with
  | some .colon => some (b.restart next)
  | some .opening => do
    let b ← endOuter? b
    let range ← rangeAt? (← sub? next 1) 1
    return (b.enter .group range).restart next
  | some .closing => do
    let b ← endIdentifier? b
    let b ← leaveGroup? b.leaveWords next
    return b.restart next
  | some .blank => do
    let b ← endIdentifier? b
    return b.leaveWords.restart next
  | none => some (b.push c)

/-- The reading stops here. Without a stop it never does. -/
def atStop (stop : Option Nat) (here : Nat) : Bool := stop.any (· ≤ here)

/-- Another colon follows in front of the stop. -/
def colonFollows (stop : Option Nat) (next : Nat) (rest : Text) : Bool :=
  !atStop stop next && rest.head? == some ':'

/-- Reads what is left of a text, character by character. At the stop the word is the
last node, whatever follows. The second colon of a variant is taken together with the
first one, so the next character may be one that has been taken already. -/
def readOn? (size : Nat) (stop : Option Nat) : Bool → Builder → Text → Option Builder
  | _, b, [] => do
    let here ← cursor? size []
    if b.word.isEmpty && !b.awaitsName && stop != some here then some b else endText? b true
  | true, b, _ :: rest => readOn? size stop false b rest
  | false, b, c :: rest => do
    let here ← cursor? size (c :: rest)
    if atStop stop here then endText? b false
    else
      let next ← cursor? size rest
      if b.mode = .bracket || c = '[' then
        readOn? size stop false { b.push c with mode := if c = ']' then .plain else .bracket } rest
      else if c = ':' && !b.word.isEmpty then
        if colonFollows stop next rest then
          let b ← endVariant? ((b.push ':').push ':') (← cursor? size rest.tail)
          readOn? size stop true b rest
        else
          let b ← endVariant? (b.push ':') next
          readOn? size stop false b rest
      else
        let b ← read? b c next
        readOn? size stop false b rest

/-- The last boundary that is not behind an offset. -/
def roundDown? (t : Text) : Nat → Option Nat
  | 0 => if t.isBoundary 0 then some 0 else none
  | n + 1 => if t.isBoundary (n + 1) then some (n + 1) else roundDown? t n

/-- The stop of a reading: in the text and between two characters. -/
def stop? (t : Text) : Option Nat → Option (Option Nat)
  | none => some none
  | some n => do return some (← offset? (← roundDown? t (min n t.size)))

/-- Groups that are still open reach as far as the root. -/
def finish? (b : Builder) : Option Arena := do
  let root ← b.arena.cell? 0
  ((b.arena.ancestors b.parent).filter b.arena.isGroup).foldlM
    (fun a id => stretch? a id root.span.stop) b.arena

/-- What is stored for a text that is read to its end or up to a stop. -/
def arena? (stop : Option Nat) (t : Text) : Option Arena := do
  let stop ← stop? t stop
  let size ← size? t
  let b ← readOn? size stop false (.init size) t
  finish? b

/-- The tree that is stored for a text. -/
def tree? (stop : Option Nat) (t : Text) : Option Tree := do
  let arena ← arena? stop t
  arena.tree?

/-! ## Rules -/

def addSpan? (spans : List Span) (s : Span) : Option (List Span) :=
  match spans with
  | [] => some [s]
  | first :: rest =>
    if first.start = s.stop then do
      let joined ← range? s.start first.stop
      return joined :: rest
    else some (s :: first :: rest)

/-- The rule that a node ends. -/
def rule? (n : Node) : Option Rule := do
  let spans ← ((n.chain.filter (!·.isGroup)).map Item.span).foldlM addSpan? []
  return { Rule.ofNode n with spans := spans }

def rules? (t : Text) : Option (List Rule) := do
  let tree ← tree? none t
  tree.terminals.mapM rule?

def rulesAt? (n : Nat) (t : Text) : Option (List Rule) := do
  let tree ← tree? none t
  let rules ← tree.terminals.mapM rule?
  if rules.any (·.isAt n) then return rules.filter (·.isAt n)
  else return rules.filter fun r => r.spans.any (tree.groupAt n).span.encloses

def ruleTyped? (n : Nat) (t : Text) : Option Rule := do
  let arena ← arena? (some n) t
  let tree ← arena.tree?
  if tree.last.item.identifier?.isSome then rule? tree.last
  else do
    let arena ← arena.appendPlaceholder? tree.last.id
    let tree ← arena.tree?
    rule? tree.last

/-! ## Diagnostics -/

/-- Cuts the `-` off the name of a negated rule. -/
def bareName? (r : Rule) : Option Text := if r.negated then after? 1 r.name else some r.name

def addRule? (voc : Vocabulary) (w : Review) (r : Rule) : Option Review := do
  let w := r.variants.foldl (Review.addVariant voc) w
  let name ← bareName? r
  if voc.knowsUtility name then return w
  else return { w with findings := w.findings ++ [⟨.unknownDirective r.name, r.loc⟩] }

def diagnostics? (voc : Vocabulary) (t : Text) : Option (List Diagnostic) := do
  let w ← (← rules? t).foldlM (addRule? voc) .empty
  return w.findings.map Finding.toDiagnostic

/-- The lines around a range, with the text cut at both of its ends. -/
def excerpt? (t : Text) (range : Span) : Option Excerpt := do
  let before ← upTo? range.start t
  let inside ← slice? range t
  let behind ← after? range.stop t
  return .around before inside behind

def render? (d : Diagnostic) (path t : Text) : Option Text := do
  return d.draw path (← excerpt? t d.range)

/-! ## Completions -/

/-- The last eight digits. -/
def padDigits? (digits : Text) : Option Text := do
  let padded : Text := List.replicate (8 - digits.length) '0' ++ digits
  after? (← sub? padded.size 8) padded

def flush? (k : Text.NaturalKey) : Option Text :=
  if k.digits.isEmpty then some k.key else do return k.key ++ (← padDigits? k.digits)

def keyStep? (k : Text.NaturalKey) (c : Char) : Option Text.NaturalKey :=
  if c.isDigit then some { k with digits := k.digits ++ [c] }
  else do
    let key ← flush? k
    return { key := if c = '\x00' then key else key ++ [c], digits := [] }

def naturalKey? (t : Text) : Option Text := do flush? (← t.foldlM keyStep? ⟨[], []⟩)

/-- Cuts a key in front of the first `-` behind the typed name. There may be none. -/
def groupOf? (typed key : Text) : Option (Option Text) := do
  let rest ← after? typed.size key
  if rest.contains '-' then
    return some (← upTo? (typed.size + Text.size (rest.takeWhile (· ≠ '-'))) key)
  else return none

def groupCompletions? (voc : Vocabulary) (r : Rule) : Option (List Completion) := do
  let found ← (voc.keys r).mapM (groupOf? r.bareName)
  return (found.filterMap id).eraseDups.filterMap fun g =>
    (relativeName? r.bareOuter g).map fun label =>
      ⟨.directiveGroup, label, '#' :: g, some (g ++ "(...)".toList), r.loc⟩

def directiveCompletion? (r : Rule) (key : Text) : Option (Option Completion) :=
  match relativeName? r.bareOuter key with
  | none => some none
  | some label => do
    return some ⟨.directive, label, '$' :: (← naturalKey? key), some key, r.loc⟩

def directiveCompletions? (voc : Vocabulary) (r : Rule) : Option (List Completion) := do
  let found ← (voc.keys r).mapM (directiveCompletion? r)
  return found.filterMap id

def completions? (voc : Vocabulary) (t : Text) (n : Nat) : Option (List Completion) := do
  let r ← ruleTyped? n t
  let groups ← groupCompletions? voc r
  let directives ← directiveCompletions? voc r
  let offers := voc.screenCompletions r ++ voc.variantCompletions r ++ groups ++ directives ++
    Vocabulary.selfCompletions r
  return offers.mergeSort fun a b => a.sortText.le b.sortText

/-! ## Hovers -/

def cover? (s t : Span) : Option Span := range? (min s.start t.start) (max s.stop t.stop)

/-- The range around all places of a rule. There may be no place. -/
def extent? (r : Rule) : Option (Option Span) :=
  match r.spans with
  | [] => some none
  | s :: rest => do return some (← rest.foldlM cover? s)

/-- What is shown at an offset. There may be nothing. -/
def hover? (t : Text) (n : Nat) (css : Rule → Option Text) : Option (Option Hover) := do
  match (← rules? t).find? (·.isAt n) with
  | none => return none
  | some r => return (← extent? r).map fun range => ⟨r.value, range, css r⟩

end ClassList.Checked
