/-
Abstract integers.

A `Sign` stands for what is known of an integer.  An operator applied to two
signs has a list of outcomes, each a way that the evaluation may go:

* `Sign.arith` — the outcomes of an arithmetic operator; only division has
  more than one, a value and an error, when the divisor may be zero;
* `Sign.compare` — the outcome of a comparison.

All operators are strict: an `error` operand makes the result an error, and an
uninitialised operand may be any integer.
-/
import SignAnalysis.Operator
import SignAnalysis.Marker.Truth

namespace SignAnalysis

/-- What is known of the value of an integer expression. -/
inductive Sign where
  | negative
  | zero
  | positive
  | any
  | uninitialized
  | error
deriving DecidableEq, Repr, Ord

namespace Sign

def text : Sign → String
  | negative => "NEGATIVE"
  | zero => "ZERO"
  | positive => "POSITIVE"
  | any => "ANY"
  | uninitialized => "UNINITIALIZED"
  | error => "ERROR"

instance : Marker Sign where
  any := any
  uninitialized := uninitialized
  error := error
  text := text

/-- Every marker, in the order in which they are sorted. -/
def all : List Sign := [negative, zero, positive, any, uninitialized, error]

/-- The sign of an integer. -/
def ofInt (n : Int) : Sign :=
  if n < 0 then negative else if n = 0 then zero else positive

/-- The sign of the opposite. -/
def negate : Sign → Sign
  | negative => positive
  | positive => negative
  | a => a

/-- The sign of a sum. -/
def sum : Sign → Sign → Sign
  | zero, b => b
  | a, zero => a
  | positive, positive => positive
  | negative, negative => negative
  | _, _ => any

/-- The sign of a product. -/
def product : Sign → Sign → Sign
  | zero, _ | _, zero => zero
  | any, _ | _, any => any
  | a, b => if a = b then positive else negative

/-- The ways in which a division by a number of this sign may go. -/
def quotients : Sign → List Sign
  | zero => [error]
  | negative | positive => [any]
  | _ => [any, error]

/-- The outcomes of an operator given by a table for operands that are neither
an error nor uninitialised. -/
def strict {β : Type} [Marker β] (table : Sign → Sign → List β) (a b : Sign) : List β :=
  if a = error ∨ b = error then [Marker.error]
  else table (Marker.asOperand a) (Marker.asOperand b)

/-- The outcomes of an arithmetic operator. -/
def arith : ArithOp → Sign → Sign → List Sign
  | .add => strict fun a b => [sum a b]
  | .sub => strict fun a b => [sum a (negate b)]
  | .mul => strict fun a b => [product a b]
  | .div => strict fun _ b => quotients b

/-- Where a sign stands on the line, if it tells. -/
def rank : Sign → Option Int
  | negative => some (-1)
  | zero => some 0
  | positive => some 1
  | _ => none

/-- Whether a number of rank `l` equals, or is at most, one of rank `r`.  Two
numbers of the same sign may compare either way, unless both are zero. -/
def compareRanks : CompareOp → Int → Int → Truth
  | .eq, l, r => if l ≠ r then .no else if l = 0 then .yes else .any
  | .le, l, r => if l < r ∨ (l = 0 ∧ r = 0) then .yes else if r < l then .no else .any

/-- The outcomes of a comparison. -/
def compare (op : CompareOp) : Sign → Sign → List Truth :=
  strict fun a b =>
    match rank a, rank b with
    | some l, some r => [compareRanks op l r]
    | _, _ => [.any]

end Sign

end SignAnalysis
