/-
Findings: what a set of configurations says about a program.

Each configuration counts for the control point of its next instruction; one
that is terminal counts for the last point.  A point has the join of the stores
of its configurations, the summary of the values that were about to be stored
there, and the summary of the guards that were about to be tested.

* `Findings.ofConfigurations` — the findings of a list of configurations; it
  depends on which configurations are in the list, not on their order;
* `Findings.strays` — the points above the last one, which count for nothing.
-/
import SignAnalysis.Marker.Summary
import SignAnalysis.Search

namespace SignAnalysis

/-- What is known at one control point. -/
structure PointFindings where
  /-- What is known of the variables. -/
  store : Store
  /-- What is stored at the point, if anything reaches it. -/
  rightHandSide : Option (Summary Sign)
  /-- What is tested at the point, if anything reaches it. -/
  guard : Option (Summary Truth)
deriving DecidableEq

structure Findings where
  /-- The point at which the end of the program is reported. -/
  lastPoint : Nat
  /-- The findings at the points from 0 to the last one. -/
  points : List PointFindings
  /-- The join of the variables at all points. -/
  programVariables : Store
  /-- The program may end without an exception. -/
  normal : Bool
  /-- The program may end with an exception. -/
  exceptional : Bool
deriving DecidableEq

namespace Configuration

/-- The point that a configuration counts for, if the last one is `last`. -/
def pointOr (c : Configuration) (last : Nat) : Nat := c.point?.getD last

/-- The value that is about to be stored. -/
def storing? (c : Configuration) : Option Sign :=
  match c.head?, c.stack with
  | some i, .int m :: _ => if i.isStore then some m else none
  | _, _ => none

/-- The guard that is about to be tested. -/
def testing? (c : Configuration) : Option Truth :=
  match c.head?, c.stack with
  | some i, .bool g :: _ => if i.isBranch then some g else none
  | _, _ => none

end Configuration

namespace Findings

/-- The join of the stores of some configurations. -/
def joinStores (cs : List Configuration) : Store :=
  cs.foldl (fun s c => s.join c.store) .empty

/-- The configurations that count for a point. -/
def countingFor (last p : Nat) (cs : List Configuration) : List Configuration :=
  cs.filter fun c => c.pointOr last = p

/-- The findings at a point.  Before the last point, the variables that are
known at the last one are known as well. -/
def atPoint (last : Nat) (cs : List Configuration) (p : Nat) : PointFindings :=
  let here := countingFor last p cs
  let final := joinStores (countingFor last last cs)
  let store := joinStores here
  { store := if p < last then final.names.foldl Store.declare store else store
    rightHandSide := Summary.ofMarkers? (here.filterMap (·.storing?))
    guard := Summary.ofMarkers? (here.filterMap (·.testing?)) }

/-- The findings of a list of configurations, with the given last point. -/
def ofConfigurations (last : Nat) (cs : List Configuration) : Findings :=
  { lastPoint := last
    points := (List.range (last + 1)).map (atPoint last cs)
    programVariables := joinStores (cs.filter fun c => c.pointOr last ≤ last)
    normal := cs.any fun c => c.isTerminal && !c.exceptional
    exceptional := cs.any fun c => c.isTerminal && c.exceptional }

/-- The points of the configurations that lie above the last point. -/
def strays (last : Nat) (cs : List Configuration) : List Nat :=
  (cs.map (·.pointOr last)).filter (last < ·)

/-- The warning about a point above the last one. -/
def strayWarning (last p : Nat) : String :=
  "Configuration at control point " ++ toString p ++
    " lies beyond the last control point " ++ toString last

/-- The variables at a point, if the program has the point. -/
def store? (f : Findings) (p : Nat) : Option Store := f.points[p]?.map (·.store)

/-- What is stored at a point, if anything is. -/
def rightHandSide? (f : Findings) (p : Nat) : Option (Summary Sign) :=
  f.points[p]?.bind (·.rightHandSide)

/-- What is tested at a point, if anything is. -/
def guard? (f : Findings) (p : Nat) : Option (Summary Truth) := f.points[p]?.bind (·.guard)

/-- The program has no end. -/
def never (f : Findings) : Bool := !f.normal && !f.exceptional

end Findings

/-- The findings of what a search has met. -/
def Search.findings (s : Search) : Findings := .ofConfigurations s.lastPoint s.visited.toList

/-- The findings of a complete search of a piece of code, or what stops the
search; there is no answer if `fuel` advances do not bring it to an end. -/
def Code.analyse (fuel : Nat) (code : Code) (limit : Option Nat) :
    Option (Except Obstacle Findings) :=
  match (Search.start code limit).run fuel with
  | (s, .finished) => some (.ok s.findings)
  | (_, .stopped o) => some (.error o)
  | (_, .unfinished) => none

end SignAnalysis
