-- A session: some files, one vocabulary, and steps that change the files or
-- ask about them. What was computed from a file is kept, and it is used again as
-- long as nothing that it was computed from has changed.
import ClassList.Completion
import ClassList.Diagnostic.Render
import ClassList.Hover
import ClassList.Text.LineIndex

namespace ClassList

/-! ## Files -/

/-- A file that is open in an editor. -/
structure File where
  path : Text
  text : Text
deriving DecidableEq

/-- A change of a file. -/
inductive Edit where
  | setText (text : Text)
  | setPath (path : Text)
deriving DecidableEq

/-! ## Questions -/

/-- A question about a file. -/
inductive Query where
  | path
  | text
  | rules
  | values
  | diagnostics
  | rendered
  | completions (offset : Nat)
  | hover (offset : Nat)
  | hoverWith (offset : Nat) (css : Rule → Option Text)
  | lineCol (offset : Nat)

inductive Answer where
  /-- The number of a new file. -/
  | file (n : Nat)
  | path (path : Text)
  | text (text : Text)
  | rules (rules : List Rule)
  | values (values : List Text)
  /-- The diagnostics, and the lines and columns where they start. -/
  | diagnostics (found : List (Diagnostic × Option (Nat × Nat)))
  | rendered (texts : List Text)
  | completions (offers : List Completion)
  | hover (hover : Option Hover)
  | lineCol (place : Option (Nat × Nat))
deriving DecidableEq

/-- The answer to an edit: the new value. -/
def File.afterEdit (f : File) : Edit → Answer
  | .setText _ => .text f.text
  | .setPath _ => .path f.path

/-! ## Values that are kept -/

/-- A value and the revision in which it was given. -/
structure Stamped (α : Type) where
  value : α
  given : Nat

/-- A computed value and the revision in which it was last up to date. -/
structure Memo (α : Type) where
  value : α
  verified : Nat

/-- How computed values are kept. -/
structure Engine where
  /-- A value is used again: from the revision in which it was verified and those in
  which the inputs that it was computed from were given. -/
  keeps : Nat → List Nat → Bool
  /-- Never is a value used again behind an input that is newer. -/
  sound : ∀ verified inputs, keeps verified inputs = true → ∀ given ∈ inputs, given ≤ verified
  /-- The paths of the files that are read go into a log. -/
  logs : Bool

namespace Engine

/-- Uses every value again that no newer input forbids. -/
def plain : Engine where
  keeps verified inputs := inputs.all (· ≤ verified)
  sound verified inputs h given hg := by simpa using List.all_eq_true.mp h given hg
  logs := false

/-- The value of a computation in a revision: the one that was kept, or a new one. -/
def fetch {α : Type} (g : Engine) (revision : Nat) (inputs : List Nat) (compute : Unit → α) :
    Option (Memo α) → Memo α
  | some m =>
    if g.keeps m.verified inputs then ⟨m.value, revision⟩ else ⟨compute (), revision⟩
  | none => ⟨compute (), revision⟩

end Engine

/-! ## Open files -/

/-- A file in a session, with what has been computed from it. -/
structure Entry where
  path : Stamped Text
  text : Stamped Text
  rules : Option (Memo (List Rule))
  lines : Option (Memo LineIndex)

namespace Entry

def ofFile (revision : Nat) (f : File) : Entry :=
  ⟨⟨f.path, revision⟩, ⟨f.text, revision⟩, none, none⟩

/-- The path and the text as they are. -/
def file (e : Entry) : File := ⟨e.path.value, e.text.value⟩

/-- A change that is given in a revision. Values computed before it stay where they are. -/
def edit (e : Entry) (revision : Nat) : Edit → Entry
  | .setText text => { e with text := ⟨text, revision⟩ }
  | .setPath path => { e with path := ⟨path, revision⟩ }

section Questions

variable (g : Engine) (revision : Nat)

def theFile : StateM Entry File := do return (← get).file

/-- The rules of the text. A log also needs the path. -/
def theRules : StateM Entry (List Rule) := do
  let e ← get
  let inputs := e.text.given :: if g.logs then [e.path.given] else []
  let memo := g.fetch revision inputs (fun _ => e.text.value.rules) e.rules
  set { e with rules := some memo }
  return memo.value

/-- The lines of the text. -/
def theLines : StateM Entry LineIndex := do
  let e ← get
  let memo := g.fetch revision [e.text.given] (fun _ => .ofText e.text.value) e.lines
  set { e with lines := some memo }
  return memo.value

/-- The diagnostics of the text. -/
def theDiagnostics (voc : Vocabulary) : StateM Entry (List Diagnostic) := do
  return (voc.review (← theRules g revision)).map Finding.toDiagnostic

/-- The answer to a question. -/
def answer (voc : Vocabulary) : Query → StateM Entry Answer
  | .path => do return .path (← theFile).path
  | .text => do return .text (← theFile).text
  | .rules => do return .rules (← theRules g revision)
  | .values => do return .values ((← theRules g revision).map Rule.value)
  | .diagnostics => do
    let found ← theDiagnostics g revision voc
    let lines ← theLines g revision
    return .diagnostics (found.map fun d => (d, lines.lineCol? d.range.start))
  | .rendered => do
    let found ← theDiagnostics g revision voc
    let f ← theFile
    return .rendered (found.map fun d => d.render f.path f.text)
  | .completions n => do return .completions (voc.completions (← theFile).text n)
  | .hover n => do return .hover (hoverAmong? (← theRules g revision) n voc.css)
  | .hoverWith n css => do return .hover (hoverAmong? (← theRules g revision) n css)
  | .lineCol n => do return .lineCol ((← theLines g revision).lineCol? n)

end Questions

end Entry

/-! ## Sessions -/

/-- A vocabulary and the files, numbered from zero in the order in which they
were added. Every edit starts a new revision. -/
structure Session where
  vocabulary : Vocabulary
  engine : Engine
  revision : Nat
  files : List Entry

inductive Step where
  | add (f : File)
  | edit (file : Nat) (e : Edit)
  | ask (file : Nat) (q : Query)

/-- Why a step has no answer: there is no file with this number. -/
structure NoFile where
  file : Nat
deriving DecidableEq

namespace Session

def startWith (g : Engine) (voc : Vocabulary) : Session := ⟨voc, g, 1, []⟩

def start (voc : Vocabulary) : Session := startWith .plain voc

/-- The session after a step, and the answer. -/
def step (s : Session) : Step → Session × Except NoFile Answer
  | .add f =>
    ({ s with files := s.files ++ [.ofFile s.revision f] }, .ok (.file s.files.length))
  | .edit n e =>
    match s.files[n]? with
    | some f =>
      let next := s.revision + 1
      let f := f.edit next e
      ({ s with revision := next, files := s.files.set n f }, .ok (f.file.afterEdit e))
    | none => (s, .error ⟨n⟩)
  | .ask n q =>
    match s.files[n]? with
    | some f =>
      let (a, f) := (Entry.answer s.engine s.revision s.vocabulary q).run f
      ({ s with files := s.files.set n f }, .ok a)
    | none => (s, .error ⟨n⟩)

/-- All steps, in order. -/
def run (s : Session) (steps : List Step) : Session := steps.foldl (fun s e => (s.step e).1) s

/-- The answers of all steps, in order. -/
def answers (s : Session) : List Step → List (Except NoFile Answer)
  | [] => []
  | e :: rest => (s.step e).2 :: answers (s.step e).1 rest

end Session

end ClassList
