/-
What a run of the command line does.

A `Session` is the list of what happens, in order, and the exit code; carrying
it out is left to whoever has a terminal.  What is printed does not depend on
the lines that are waited for.

* `Session.ofArguments` — the session for a list of arguments, given a way to
  read files.
-/
import SignAnalysis.CommandLine.Arguments
import SignAnalysis.Error
import SignAnalysis.Program.Parser
import SignAnalysis.Text.Space

namespace SignAnalysis

inductive Event where
  /-- A line is printed. -/
  | print (line : String)
  /-- A line of input is waited for. -/
  | await
  /-- A message is logged. -/
  | info (message : String)
  /-- An error is logged. -/
  | failure (message : String)
deriving DecidableEq, Repr

structure Session where
  events : List Event
  exitCode : Nat
deriving DecidableEq, Repr

namespace Session

/-- A session that begins like this and ends with an error. -/
def failed (events : List Event) (e : Error) : Session := ⟨events ++ [.failure e.message], 1⟩

/-- The text in a file. -/
def decode (bytes : ByteArray) : Except FileError String :=
  match String.fromUTF8? bytes with
  | some text => .ok text
  | none => .error .notText

/-- The program is shown, and its code if that is asked for. -/
def opening (args : Arguments) (text : String) (code : Code) : List Event :=
  .print (Text.trimRight text) :: if args.debug then [.print ("\n" ++ Code.text code)] else []

/-- Before every step of the search its frontier is shown, if that is asked for. -/
def watching (args : Arguments) (s : Search) : List Event :=
  if args.step then
    (s.trail Search.patience).flatMap fun s =>
      s.frontier.map (fun c => .print c.text) ++ [.await]
  else []

/-- The search is counted, and the report shown. -/
def closing (program : Stmt) (compiled : Compiled) (s : Search) (events : List Event) : Session :=
  let events := events ++ [.info ("Visited " ++ toString s.visited.size ++
    " configurations in " ++ toString s.steps ++ " steps")]
  match Report.make program compiled s.findings with
  | .error m => failed events (.report m)
  | .ok r => ⟨events ++ [.print ("\n" ++ r.text)], 0⟩

/-- The session for the text of a program. -/
def ofText (args : Arguments) (text : String) : Session :=
  match Stmt.ofText text with
  | .error e => failed [] (.program e)
  | .ok program =>
    let compiled := program.compile
    let s := Search.start compiled.code args.limit
    let events := opening args text compiled.code ++ watching args s
    match s.run Search.patience with
    | (s, .finished) => closing program compiled s events
    | (_, .stopped o) => failed events (.search o)
    | (_, .unfinished) => failed events .unfinished

/-- The session for a list of arguments.  Wrong arguments end it before anything
is read. -/
def ofArguments (words : List String) (contents : String → Except FileError ByteArray) : Session :=
  match Arguments.ofList? words with
  | none => ⟨[], 2⟩
  | some args =>
    match contents args.path >>= decode with
    | .error e => failed [] (.file e)
    | .ok text => ofText args text

end Session

end SignAnalysis
