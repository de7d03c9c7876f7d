/-
Breadth-first search of the configurations of a piece of code.

A search keeps the configurations it has met and, in the order in which they
were met, those whose successors it has not looked at.  It may have a limit on
the number of configurations.

* `Search.advance` — looks at the successors of one configuration;
* `Search.run` — advances until nothing is left, or something stops it.

Code that pushes operands in a loop has no end of configurations, so `run` takes
the number of advances it may make.  With a limit of `n` the search stops by
itself after `max n 1` of them, and the search of a compiled program always
ends, so `Search.patience` is more than any search makes that can be carried
out.
-/
import SignAnalysis.Machine.ConfigurationSet
import SignAnalysis.Machine.Step

namespace SignAnalysis

/-- Why a search stops before its end. -/
inductive Obstacle where
  | fault (fault : Fault)
  | limit (count : Nat)
deriving DecidableEq

def Obstacle.message : Obstacle → String
  | fault f => f.message
  | limit n => "Exploration exceeded the limit of " ++ toString n ++ " configurations"

structure Search where
  /-- The largest number of configurations to meet. -/
  limit : Option Nat
  /-- The configurations whose successors are still to be met, the next one first. -/
  frontier : List Configuration
  /-- The configurations that have been met. -/
  visited : ConfigurationSet
  /-- The number of configurations whose successors have been met. -/
  steps : Nat
  /-- The largest control point in the code and in the configurations met. -/
  highest : Nat
  /-- The number of machine words. -/
  words : Nat
deriving DecidableEq

namespace Search

/-- The configurations of a list that have something left to execute. -/
def pending (cs : List Configuration) : List Configuration := cs.filter (!·.isTerminal)

/-- The search that has met the initial configuration of a piece of code. -/
def start (code : Code) (limit : Option Nat) : Search :=
  let c := Configuration.initial code
  { limit
    frontier := pending [c]
    visited := .insert .empty c
    steps := 0
    highest := Code.highest code
    words := Code.wordCount code }

/-- Meets a configuration; it is put at the end of the frontier if it is new and
not terminal. -/
def meet (s : Search) (c : Configuration) : Search :=
  let s := { s with highest := max s.highest (c.point?.getD 0) }
  if c ∈ s.visited then s
  else { s with frontier := s.frontier ++ pending [c], visited := s.visited.insert c }

/-- The search has met more configurations than its limit allows. -/
def overLimit? (s : Search) : Option Obstacle :=
  match s.limit with
  | none => none
  | some n => if n < s.visited.size then some (.limit n) else none

/-- Meets the successors of the next configuration of the frontier.  If that one
cannot step, it is dropped; if the limit is exceeded, its successors stay met. -/
def advance (s : Search) : Search × Option Obstacle :=
  match s.frontier with
  | [] => (s, none)
  | c :: rest =>
    match c.step with
    | .error f => ({ s with frontier := rest }, some (.fault f))
    | .ok cs =>
      let s := cs.foldl meet { s with frontier := rest, steps := s.steps + 1 }
      (s, s.overLimit?)

/-- How a run ends. -/
inductive Outcome where
  /-- The frontier is empty. -/
  | finished
  | stopped (obstacle : Obstacle)
  /-- The advances that the run may make are used up. -/
  | unfinished
deriving DecidableEq

/-- Advances until the frontier is empty or an obstacle is met, at most `fuel` times. -/
def run (fuel : Nat) (s : Search) : Search × Outcome :=
  if s.frontier.isEmpty then (s, .finished)
  else
    match fuel with
    | 0 => (s, .unfinished)
    | fuel + 1 =>
      match s.advance with
      | (s, some o) => (s, .stopped o)
      | (s, none) => run fuel s

/-- The searches before each advance of a run, in order. -/
def trail (fuel : Nat) (s : Search) : List Search :=
  if s.frontier.isEmpty then []
  else
    match fuel with
    | 0 => []
    | fuel + 1 =>
      match s.advance with
      | (_, some _) => [s]
      | (t, none) => s :: trail fuel t

/-- More advances than a run makes that can be carried out, and more than any
limit that fits in 64 bits. -/
def patience : Nat := 18446744073709551616

/-- The control point under which the end of the program is reported.  It is the word after
the highest point, and 0 after the largest word. -/
def lastPoint (s : Search) : Nat := (s.highest + 1) % s.words

end Search

end SignAnalysis
