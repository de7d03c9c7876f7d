/-
Abstract truth values.

A `Truth` stands for what is known of a guard.  The connectives are strict:
an `error` operand makes the result an error, and an uninitialised operand
may be either truth value.
-/
import SignAnalysis.Marker.Basic

namespace SignAnalysis

/-- What is known of the value of a guard. -/
inductive Truth where
  | yes
  | no
  | any
  | uninitialized
  | error
deriving DecidableEq, Repr, Ord

namespace Truth

def text : Truth → String
  | yes => "TRUE"
  | no => "FALSE"
  | any => "ANY"
  | uninitialized => "UNINITIALIZED"
  | error => "ERROR"

instance : Marker Truth where
  any := any
  uninitialized := uninitialized
  error := error
  text := text

/-- Every marker, in the order in which they are sorted. -/
def all : List Truth := [yes, no, any, uninitialized, error]

def ofBool : Bool → Truth
  | true => yes
  | false => no

/-- Whether a guard with this marker can be true. -/
def mayHold : Truth → Bool
  | yes | any => true
  | _ => false

/-- Whether a guard with this marker can be false. -/
def mayFail : Truth → Bool
  | no | any => true
  | _ => false

/-- The conjunction.  Both operands are evaluated, so an error in either is an
error of the whole even if the other is false. -/
def and (a b : Truth) : Truth :=
  match Marker.asOperand a, Marker.asOperand b with
  | error, _ | _, error => error
  | no, _ | _, no => no
  | yes, yes => yes
  | _, _ => any

/-- The negation. -/
def not (a : Truth) : Truth :=
  match Marker.asOperand a with
  | yes => no
  | no => yes
  | b => b

end Truth

end SignAnalysis
