/-
Flags: what a report warns about.

A flag is read off the summary of a right-hand side or of a guard.  Exceptions
come first, then variables without a value, and a guard that is always the same
makes code unreachable: either arm of a conditional, but only the body of a
loop.
-/
import SignAnalysis.Findings

namespace SignAnalysis

inductive Flag where
  | raises
  | mayRaise
  | uninitialized
  | unreachable
deriving DecidableEq, Repr

namespace Flag

def text : Flag → String
  | raises => "Exception raiser!"
  | mayRaise => "Possible exception raiser!"
  | uninitialized => "Use of uninitialised variable!"
  | unreachable => "Unreachable code!"

/-- The flags that summaries of both sorts can have. -/
def ofSummary? {α : Type} [DecidableEq α] [Marker α] (s : Summary α) : Option Flag :=
  if s.definitelyRaises then some raises
  else if s.possiblyRaises then some mayRaise
  else if s.isUninitialized then some uninitialized
  else none

/-- The flag of a right-hand side; one that is never evaluated has none. -/
def ofRightHandSide? (rhs : Option (Summary Sign)) : Option Flag := rhs.bind ofSummary?

/-- The flag of a guard, of a loop or of a conditional; one that is never
evaluated has none. -/
def ofGuard? (guard : Option (Summary Truth)) (isLoop : Bool) : Option Flag :=
  guard.bind fun g =>
    (ofSummary? g).or
      (if g.value = .no ∨ (g.value = .yes ∧ isLoop = false) then some unreachable else none)

end Flag

/-- The ways in which a program may end, in words. -/
def Findings.termination (f : Findings) : String :=
  match f.normal, f.exceptional with
  | true, true => "possibly exceptional termination"
  | true, false => "normal termination"
  | false, true => "exceptional termination"
  | false, false => "no termination"

end SignAnalysis
