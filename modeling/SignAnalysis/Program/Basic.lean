/-
While programs with exceptions.

Arithmetic expressions raise an exception when they divide by zero; a
statement `try s catch h` runs `h` if `s` raises.  Assignments, conditionals,
loops and try blocks each have a control point, a number under which the
analysis reports on them.  Points are counted from 1 in source order:

* `Stmt.pointCount` — how many points a statement has, with all it contains;
* `Stmt.points` — the points that a statement takes when `k` are taken already;
* `Stmt.points_eq_range'` — they are the numbers from `k + 1` on.
-/
import SignAnalysis.Store

namespace SignAnalysis

/-- An arithmetic expression. -/
inductive Expr where
  | num (value : Int)
  | var (name : Var)
  | binary (op : ArithOp) (left right : Expr)
deriving DecidableEq, Repr

/-- A boolean expression, which guards a conditional or a loop. -/
inductive Guard where
  | const (value : Bool)
  | compare (op : CompareOp) (left right : Expr)
  | not (operand : Guard)
  | and (left right : Guard)
deriving DecidableEq, Repr

/-- A statement. -/
inductive Stmt where
  | assign (target : Var) (value : Expr)
  | skip
  | seq (first second : Stmt)
  | cond (guard : Guard) (yes no : Stmt)
  | loop (guard : Guard) (body : Stmt)
  | attempt (body handler : Stmt)
deriving DecidableEq, Repr

namespace Stmt

/-- The number of control points of a statement and of all statements in it. -/
def pointCount : Stmt → Nat
  | assign _ _ => 1
  | skip => 0
  | seq s t => s.pointCount + t.pointCount
  | cond _ s t => s.pointCount + t.pointCount + 1
  | loop _ s => s.pointCount + 1
  | attempt s t => s.pointCount + t.pointCount + 1

/-- The control points of a statement in front of which `k` points are taken,
in source order. -/
def points (k : Nat) : Stmt → List Nat
  | assign _ _ => [k + 1]
  | skip => []
  | seq s t => s.points k ++ t.points (k + s.pointCount)
  | cond _ s t => (k + 1) :: (s.points (k + 1) ++ t.points (k + 1 + s.pointCount))
  | loop _ s => (k + 1) :: s.points (k + 1)
  | attempt s t => (k + 1) :: (s.points (k + 1) ++ t.points (k + 1 + s.pointCount))

/-- The points of a statement are the numbers that follow those taken. -/
theorem points_eq_range' (k : Nat) (s : Stmt) :
    s.points k = List.range' (k + 1) s.pointCount := by
  induction s generalizing k with
  | assign x e => rfl
  | skip => rfl
  | seq s t ihs iht =>
    rw [points, pointCount, ihs, iht, Nat.add_right_comm, List.range'_append_1]
  | cond g s t ihs iht =>
    rw [points, pointCount, ihs, iht, Nat.add_right_comm (k + 1), List.range'_append_1,
      List.range'_succ]
  | loop g s ih => rw [points, pointCount, ih, List.range'_succ]
  | attempt s t ihs iht =>
    rw [points, pointCount, ihs, iht, Nat.add_right_comm (k + 1), List.range'_append_1,
      List.range'_succ]

@[simp] theorem length_points (k : Nat) (s : Stmt) : (s.points k).length = s.pointCount := by
  rw [points_eq_range', List.length_range']

end Stmt

end SignAnalysis
