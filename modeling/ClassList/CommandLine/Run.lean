-- What the program prints for a command.
import ClassList.CommandLine.Basic
import ClassList.Completion
import ClassList.Diagnostic.Render
import ClassList.Hover
import ClassList.Json.Printer
import ClassList.Rule.Report
import ClassList.Vocabulary.Builtin
import ClassList.Vocabulary.Reader

namespace ClassList

/-! ## Results as JSON -/

def Completion.toJson (c : Completion) : Json :=
  .fields [
    ("kind", .string c.kind.name.toList),
    ("label", .string c.label),
    ("sort_text", .string c.sortText),
    ("detail", .ofText? c.detail),
    ("range", c.range.toJson)]

def Hover.toJson (h : Hover) : Json :=
  .fields [("value", .string h.value), ("range", h.range.toJson), ("css", .ofText? h.css)]

/-! ## Input -/

/-- Why a file cannot be read. -/
inductive ReadError where
  /-- There is none. -/
  | missing
  /-- Its bytes are no text. -/
  | notText
  /-- Another reason that the system gives. -/
  | system (message : Text)
deriving DecidableEq

def ReadError.message : ReadError → Text
  | missing => "No such file or directory (os error 2)".toList
  | notText => "stream did not contain valid UTF-8".toList
  | system message => message

/-- Everything that a command may read. -/
structure Inputs where
  stdin : Except ReadError Text
  file : Text → Except ReadError Text

/-- The text of some bytes. -/
def Text.ofBytes (bytes : ByteArray) : Except ReadError Text :=
  match String.fromUTF8? bytes with
  | some s => .ok s.toList
  | none => .error .notText

/-! ## Failures -/

/-- Why a command fails: what it was about, and the causes, each one the cause
of the one before it. -/
structure Trouble where
  summary : Text
  causes : List Text
deriving DecidableEq

/-- A name as it stands in a message. -/
def ticked (name : Text) : Text := '`' :: name ++ ['`']

namespace Trouble

/-- The causes below each other. They are numbered if there are several. -/
def causeLines : List Text → List Text
  | [cause] => [Text.spaces 4 ++ cause]
  | causes => causes.zipIdx.map fun (cause, n) =>
    let number := Text.ofNat n
    Text.spaces (5 - number.length) ++ number ++ [':', ' '] ++ cause

def text (t : Trouble) : Text :=
  "Error: ".toList ++ t.summary ++ "\n\nCaused by:\n".toList ++
    (causeLines t.causes).flatMap (· ++ ['\n'])

end Trouble

namespace Inputs

/-- The text of a path. A `-` is the standard input. -/
def read (i : Inputs) (path : Text) : Except Trouble Text :=
  if path = ['-'] then
    match i.stdin with
    | .ok t => .ok t
    | .error e => .error ⟨"failed to read stdin".toList, [e.message]⟩
  else
    match i.file path with
    | .ok t => .ok t
    | .error e => .error ⟨"failed to read ".toList ++ ticked path, [e.message]⟩

/-- The vocabulary of a file, or the builtin one. -/
def vocabulary (i : Inputs) : Option Text → Except Trouble Vocabulary
  | none => .ok .builtin
  | some path =>
    match i.file path with
    | .error e => .error ⟨"failed to read vocabulary ".toList ++ ticked path, [e.message]⟩
    | .ok document =>
      match Vocabulary.parse document with
      | .ok v => .ok v
      | .error e =>
        .error ⟨"failed to load vocabulary ".toList ++ ticked path, e.causes document⟩

end Inputs

/-! ## Output -/

/-- What the program prints, and its exit code. -/
structure Outcome where
  exit : Nat
  stdout : Text
  stderr : Text
deriving DecidableEq

namespace Outcome

/-- Prints a result. -/
def json (v : Json) : Outcome := ⟨0, v.pretty ++ ['\n'], []⟩

/-- Prints diagnostics. They are a failure, if there are any. -/
def diagnostics (rendered : List Text) : Outcome :=
  ⟨if rendered.isEmpty then 0 else 1, [], rendered.flatMap (· ++ ['\n'])⟩

def trouble (t : Trouble) : Outcome := ⟨1, [], t.text⟩

/-- The words of the command line are wrong. -/
def usage : Outcome :=
  ⟨2, [], "usage: parse|check|complete|hover PATH [OPTIONS]\n".toList⟩

end Outcome

namespace Command

/-- The result of a command, or why there is none. A vocabulary is read before
the file. -/
def result (i : Inputs) : Command → Except Trouble Outcome
  | .version => .ok ⟨0, "classy 0.1.0\n".toList, []⟩
  | .parse path selection => do
    let t ← i.read path
    return .json <| match selection with
      | .all => .array (t.rules.map (·.toJson))
      | .around n => .array ((t.rulesAt n).map (·.toJson))
      | .typed n => (t.ruleTyped n).toJson
  | .check path vocabulary => do
    let voc ← i.vocabulary vocabulary
    let t ← i.read path
    return .diagnostics ((voc.diagnostics t).map (·.render path t))
  | .complete path n vocabulary => do
    let voc ← i.vocabulary vocabulary
    let t ← i.read path
    return .json (.array ((voc.completions t n).map (·.toJson)))
  | .hover path n vocabulary => do
    let voc ← i.vocabulary vocabulary
    let t ← i.read path
    return .json <| match t.hover? n voc.css with
      | some h => h.toJson
      | none => .null

/-- What the program prints for a command line. -/
def run (words : List Text) (i : Inputs) : Outcome :=
  match read? words with
  | none => .usage
  | some c =>
    match c.result i with
    | .ok o => o
    | .error t => .trouble t

end Command

end ClassList
