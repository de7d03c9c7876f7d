/-
The arguments of the command line.

One argument is the path of a program; `-d` or `--debug` and `-s` or `--step`
are flags, and `--max-configurations` takes a count, as the next argument or
after an equals sign.  Short flags may be joined, options may stand on either
side of the path, and after `--` there are no more options.

* `Arguments.ofList?` — the arguments, unless they are wrong in any way: an
  option that is unknown, repeated or lacks its value, or no path, or two.
-/

namespace SignAnalysis

structure Arguments where
  /-- The path of the program. -/
  path : String
  /-- Show the compiled code. -/
  debug : Bool
  /-- Show the frontier, and wait for a line, before every step of the search. -/
  step : Bool
  /-- The largest number of configurations to visit. -/
  limit : Option Nat
deriving DecidableEq, Repr

namespace Arguments

/-- The arguments that have been given so far. -/
structure Given where
  path : Option String := none
  debug : Bool := false
  step : Bool := false
  limit : Option Nat := none
deriving DecidableEq, Repr

/-- The largest count that may be given: the largest unsigned 64-bit integer. -/
def largestCount : Nat := 18446744073709551615

/-- A count in decimal digits, with an optional plus sign. -/
def count? (text : String) : Option Nat :=
  let digits := match text.toList with
    | '+' :: rest => rest
    | all => all
  let value := Nat.ofDigitChars 10 digits 0
  if !digits.isEmpty && digits.all Char.isDigit && value ≤ largestCount then some value else none

namespace Given

/-- Only one path may be given, and it may not be empty. -/
def addPath (g : Given) (path : String) : Option Given :=
  if g.path.isSome || path.isEmpty then none else some { g with path := some path }

def addDebug (g : Given) : Option Given :=
  if g.debug then none else some { g with debug := true }

def addStep (g : Given) : Option Given :=
  if g.step then none else some { g with step := true }

def addLimit (g : Given) (count : String) : Option Given :=
  if g.limit.isSome then none else (count? count).map fun n => { g with limit := some n }

/-- A flag by its letter. -/
def addFlag (g : Given) : Char → Option Given
  | 'd' => g.addDebug
  | 's' => g.addStep
  | _ => none

/-- An option whose value is attached to it. -/
def addAttached (g : Given) (argument : String) : Option Given :=
  let option := "--max-configurations=".toList
  if option.isPrefixOf argument.toList then
    g.addLimit (String.ofList (argument.toList.drop option.length))
  else none

end Given

/-- Takes in the arguments one after the other. -/
def read : List String → Given → Option Given
  | [], g => some g
  | "--" :: rest, g => rest.foldlM Given.addPath g
  | "--debug" :: rest, g => g.addDebug.bind (read rest)
  | "--step" :: rest, g => g.addStep.bind (read rest)
  | "--max-configurations" :: count :: rest, g => (g.addLimit count).bind (read rest)
  | argument :: rest, g =>
    match argument.toList with
    | '-' :: '-' :: _ => (g.addAttached argument).bind (read rest)
    | '-' :: flag :: more => ((flag :: more).foldlM Given.addFlag g).bind (read rest)
    | _ => (g.addPath argument).bind (read rest)

/-- The arguments that a list of words gives. -/
def ofList? (words : List String) : Option Arguments := do
  let g ← read words {}
  let path ← g.path
  some { path, debug := g.debug, step := g.step, limit := g.limit }

end Arguments

end SignAnalysis
