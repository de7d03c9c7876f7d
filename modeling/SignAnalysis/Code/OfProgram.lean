/-
Compiling programs.

Expressions leave their value on the operand stack; the right operand is
evaluated first, so the left one ends on top.  A statement in front of which
`k` control points are taken numbers its own from `k + 1` on, and all
instructions of a statement carry its point.

* `Expr.code`, `Guard.code`, `Stmt.code` — the code of each part of a program;
* `Stmt.compile` — the code of a program and its control points.
-/
import SignAnalysis.Code.Basic
import SignAnalysis.Program.Basic

namespace SignAnalysis

/-- The code of an expression in the statement with control point `p`. -/
def Expr.code (p : Nat) : Expr → Code
  | num n => [.basic p (.push n)]
  | var x => [.basic p (.fetch x)]
  | binary op l r => r.code p ++ l.code p ++ [.basic p (.arith op)]

/-- The code of a guard of the statement with control point `p`. -/
def Guard.code (p : Nat) : Guard → Code
  | const b => [.basic p (.truth b)]
  | compare op l r => r.code p ++ l.code p ++ [.basic p (.compare op)]
  | not g => g.code p ++ [.basic p .negate]
  | and l r => r.code p ++ l.code p ++ [.basic p .conj]

/-- The code of a statement in front of which `k` control points are taken.  A
`skip` has no point of its own and carries the last one taken. -/
def Stmt.code (k : Nat) : Stmt → Code
  | assign x e => e.code (k + 1) ++ [.basic (k + 1) (.store x)]
  | skip => [.basic k .noop]
  | seq s t => s.code k ++ t.code (k + s.pointCount)
  | cond g s t =>
    g.code (k + 1) ++ [.branch (k + 1) (s.code (k + 1)) (t.code (k + 1 + s.pointCount))]
  | loop g s => [.loop (k + 1) (g.code (k + 1)) (s.code (k + 1))]
  | attempt s t => [.attempt (k + 1) (s.code (k + 1)) (t.code (k + 1 + s.pointCount))]

/-- The code of a program, and the control points of its statements in source
order. -/
structure Compiled where
  code : Code
  points : List Nat
deriving DecidableEq

def Stmt.compile (s : Stmt) : Compiled := ⟨s.code 0, s.points 0⟩

end SignAnalysis
