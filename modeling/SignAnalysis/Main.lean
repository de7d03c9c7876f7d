/-
The command line: reads a program from a file and prints its report.
-/
import SignAnalysis.CommandLine.Session

namespace SignAnalysis

/-- The bytes of a file, or why they cannot be had. -/
def readBytes (path : String) : IO (Except FileError ByteArray) := do
  try
    return .ok (← IO.FS.readBinFile path)
  catch
    | .noFileOrDirectory .. => return .error .missing
    | .inappropriateType .. => return .error .directory
    | e => return .error (.other (toString e))

/-- Carries out one event of a session. -/
def Event.perform : Event → IO Unit
  | print line => do
    IO.println line
    (← IO.getStdout).flush
  | await => do
    let _ ← (← IO.getStdin).getLine
  | info message => IO.eprintln ("[INFO] " ++ message)
  | failure message => IO.eprintln ("[ERROR] " ++ message)

/-- The session for a list of arguments, with the file that they name. -/
def session (words : List String) : IO Session := do
  match Arguments.ofList? words with
  | none =>
    IO.eprintln "usage: [-d | --debug] [-s | --step] [--max-configurations COUNT] PROGRAM"
    return .ofArguments words fun _ => .error .missing
  | some args =>
    let bytes ← readBytes args.path
    return .ofArguments words fun _ => bytes

end SignAnalysis

def main (words : List String) : IO UInt32 := do
  let s ← SignAnalysis.session words
  s.events.forM SignAnalysis.Event.perform
  return s.exitCode.toUInt32
