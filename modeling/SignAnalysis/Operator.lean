/-
The operators of the While language.

Arithmetic and comparison operators are enumerated once, and shared by the
expressions of a program, the abstract values, and the instructions that
compute with them.
-/

namespace SignAnalysis

/-- The arithmetic operators. -/
inductive ArithOp where
  | add | sub | mul | div
deriving DecidableEq, Repr

/-- The comparison operators. -/
inductive CompareOp where
  | eq | le
deriving DecidableEq, Repr

/-- The operator as a program writes it. -/
def ArithOp.symbol : ArithOp → String
  | add => "+"
  | sub => "-"
  | mul => "*"
  | div => "/"

/-- The name of the instruction that applies the operator. -/
def ArithOp.mnemonic : ArithOp → String
  | add => "ADD"
  | sub => "SUB"
  | mul => "MULT"
  | div => "DIV"

/-- The comparison as a program writes it. -/
def CompareOp.symbol : CompareOp → String
  | eq => "="
  | le => "<="

/-- The name of the instruction that applies the comparison. -/
def CompareOp.mnemonic : CompareOp → String
  | eq => "EQ"
  | le => "LE"

end SignAnalysis
