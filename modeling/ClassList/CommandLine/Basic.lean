-- The command line: what someone may ask for, and how it is written.
import ClassList.Text

namespace ClassList

/-! ## Commands -/

/-- Which rules of a file are meant. -/
inductive Selection where
  | all
  /-- The rules at an offset. -/
  | around (offset : Nat)
  /-- The rule being typed at an offset. -/
  | typed (offset : Nat)
deriving DecidableEq

/-- A task of the program. A vocabulary is a file, and without one the builtin
vocabulary is used. -/
inductive Command where
  | version
  | parse (path : Text) (selection : Selection)
  | check (path : Text) (vocabulary : Option Text)
  | complete (path : Text) (offset : Nat) (vocabulary : Option Text)
  | hover (path : Text) (offset : Nat) (vocabulary : Option Text)
deriving DecidableEq

/-! ## Options -/

/-- The options of a command. -/
inductive Flag where
  | offset
  | exact
  | vocabulary
deriving DecidableEq

def Flag.ofName? (name : Text) : Option Flag :=
  if name = "--offset".toList then some .offset
  else if name = "--exact".toList then some .exact
  else if name = "--vocabulary".toList then some .vocabulary
  else none

/-- What the words behind a command say. -/
structure Options where
  path : Option Text
  offset : Option Text
  exact : Bool
  vocabulary : Option Text
deriving DecidableEq

namespace Options

def empty : Options := ⟨none, none, false, none⟩

/-- Takes a word as the path. There is only one. -/
def addPath? (o : Options) (path : Text) : Option Options :=
  match o.path with
  | none => some { o with path := some path }
  | some _ => none

/-- Gives an option its value. Each option stands once. -/
def addValue? (o : Options) (flag : Flag) (value : Text) : Option Options :=
  match flag with
  | .offset => if o.offset.isSome then none else some { o with offset := some value }
  | .vocabulary => if o.vocabulary.isSome then none else some { o with vocabulary := some value }
  | .exact => none

/-- Sets the option without a value. -/
def addExact? (o : Options) : Option Options :=
  if o.exact then none else some { o with exact := true }

/-- A word that is no option. A single `-` is a path. -/
def isPlain (word : Text) : Bool := word == ['-'] || word.head? != some '-'

/-- Reads the words behind a command that has certain options. A value stands
behind a `=` or is the next word. Behind `--` there are no options. -/
def read? (flags : List Flag) (o : Options) : List Text → Option Options
  | [] => some o
  | word :: rest =>
    if word = ['-', '-'] then rest.foldlM addPath? o
    else if isPlain word then do read? flags (← o.addPath? word) rest
    else
      match (Flag.ofName? (word.takeWhile (· ≠ '='))).filter flags.contains with
      | none => none
      | some flag =>
        match word.dropWhile (· ≠ '='), flag, rest with
        | _ :: value, flag, rest => do read? flags (← o.addValue? flag value) rest
        | [], .exact, rest => do read? flags (← o.addExact?) rest
        | [], flag, value :: rest =>
          if isPlain value then do read? flags (← o.addValue? flag value) rest else none
        | [], _, [] => none

end Options

/-! ## Reading -/

/-- The largest offset. -/
def maxOffset : Nat := 4294967295

/-- An offset in decimal. A sign may stand in front, but only zero is still an
offset with a `-`. -/
def readOffset? (t : Text) : Option Nat :=
  let (negative, digits) := match t with
    | '+' :: rest => (false, rest)
    | '-' :: rest => (true, rest)
    | rest => (false, rest)
  if digits.isEmpty || !digits.all Char.isDigit then none
  else
    let n := Text.toNat digits
    if n ≤ maxOffset && (!negative || n == 0) then some n else none

namespace Command

/-- Which rules the options ask for. The exact rule needs an offset. -/
def selection? (o : Options) : Option Selection :=
  match o.offset, o.exact with
  | none, false => some .all
  | none, true => none
  | some t, false => (readOffset? t).map .around
  | some t, true => (readOffset? t).map .typed

/-- The word that asks for the version, alone or in front of everything else. -/
def asksVersion (word : Text) : Bool := word == "--version".toList || ['-', 'V'].isPrefixOf word

/-- The command that the words of a command line say, if they are right. -/
def read? : List Text → Option Command
  | [] => none
  | word :: rest =>
    if asksVersion word then some .version
    else
      match String.ofList word with
      | "parse" => do
        let o ← Options.read? [.offset, .exact] .empty rest
        return .parse (← o.path) (← selection? o)
      | "check" => do
        let o ← Options.read? [.vocabulary] .empty rest
        return .check (← o.path) o.vocabulary
      | "complete" => do
        let o ← Options.read? [.offset, .vocabulary] .empty rest
        return .complete (← o.path) (← readOffset? (← o.offset)) o.vocabulary
      | "hover" => do
        let o ← Options.read? [.offset, .vocabulary] .empty rest
        return .hover (← o.path) (← readOffset? (← o.offset)) o.vocabulary
      | _ => none

/-- The files that a command reads. -/
def paths : Command → List Text
  | .version => []
  | .parse path _ => [path]
  | .check path v | .complete path _ v | .hover path _ v => v.toList ++ [path]

end Command

end ClassList
