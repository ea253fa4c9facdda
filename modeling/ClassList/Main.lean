-- The program: reads what a command needs and prints its outcome.
import ClassList.CommandLine.Run

namespace ClassList

/-- Everything that is left in a stream. -/
partial def readToEnd (input : IO.FS.Stream) (done : ByteArray) : IO ByteArray := do
  let chunk ← input.read 65536
  if chunk.isEmpty then return done else readToEnd input (done ++ chunk)

/-- The bytes of a file as text, or why it cannot be read. -/
def readFile (path : Text) : IO (Except ReadError Text) := do
  try
    return Text.ofBytes (← IO.FS.readBinFile (String.ofList path))
  catch
    | .noFileOrDirectory .. => return .error .missing
    | e => return .error (.system e.toString.toList)

/-- Everything that a command reads. -/
def gather (c : Command) : IO Inputs := do
  let files ← c.paths.mapM fun path => do return (path, ← readFile path)
  let stdin ← if c.paths.contains ['-'] then readToEnd (← IO.getStdin) .empty else pure .empty
  return {
    stdin := Text.ofBytes stdin
    file := fun path => (files.lookup path).getD (.error .missing) }

end ClassList

open ClassList in
def main (args : List String) : IO UInt32 := do
  let words := args.map String.toList
  let inputs ← match Command.read? words with
    | some c => gather c
    | none => pure ⟨.ok [], fun _ => .error .missing⟩
  let outcome := Command.run words inputs
  (← IO.getStdout).putStr (String.ofList outcome.stdout)
  (← IO.getStderr).putStr (String.ofList outcome.stderr)
  return outcome.exit.toUInt32
