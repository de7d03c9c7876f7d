/-
Summaries: what all evaluations of one expression may give.

A `Summary` keeps the join of the values apart from the possibility of an
exception, so a value and an error seen at the same place are both reported:

* `Summary.ofMarker` — what one evaluation says;
* `Summary.join`, `Summary.insert` — what several say together;
* `Summary.ofMarkers?` — nothing at all if there was no evaluation.
-/
import SignAnalysis.Marker.Basic

namespace SignAnalysis

/-- The join of the values of an expression, and whether evaluating it may raise. -/
structure Summary (α : Type) where
  value : α
  raises : Bool
deriving DecidableEq, Repr

namespace Summary

variable {α : Type} [DecidableEq α] [Marker α]

/-- Nothing is known: no value, no exception. -/
def empty : Summary α := ⟨Marker.uninitialized, false⟩

/-- An error is an exception without a value. -/
def ofMarker (m : α) : Summary α :=
  if m = Marker.error then ⟨Marker.uninitialized, true⟩ else ⟨m, false⟩

def join (s t : Summary α) : Summary α :=
  ⟨Marker.join s.value t.value, s.raises || t.raises⟩

/-- Takes one more evaluation into account. -/
def insert (s : Summary α) (m : α) : Summary α := s.join (ofMarker m)

/-- The summary of the evaluations that were seen, if there were any. -/
def ofMarkers? (ms : List α) : Option (Summary α) :=
  if ms.isEmpty then none else some (ms.foldl insert empty)

/-- Every evaluation raises. -/
def definitelyRaises (s : Summary α) : Bool :=
  s.raises && decide (s.value = Marker.uninitialized)

/-- Some evaluations raise, and some give a value. -/
def possiblyRaises (s : Summary α) : Bool :=
  s.raises && decide (s.value ≠ Marker.uninitialized)

/-- No evaluation raises, and none gives a value. -/
def isUninitialized (s : Summary α) : Bool :=
  !s.raises && decide (s.value = Marker.uninitialized)

def text (s : Summary α) : String :=
  if s.definitelyRaises then Marker.text (Marker.error : α)
  else if s.raises then Marker.text s.value ++ "|" ++ Marker.text (Marker.error : α)
  else Marker.text s.value

end Summary

end SignAnalysis
