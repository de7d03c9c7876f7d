/-
Reports: a program with the findings in front of its statements.

Every assignment, conditional, loop and try block has a line above it with the
variables at its control point; an assignment shows there what its right-hand
side may be, a conditional or loop what its guard may be.  The last line of a
report has the variables at the end and the ways in which the program may end.

* `Report.make` — pairs a program with findings, if the control points fit;
* `Report.text` — the lines of a report.
-/
import SignAnalysis.Code.OfProgram
import SignAnalysis.Program.Printer
import SignAnalysis.Report.Flag

namespace SignAnalysis

/-- A program has another number of control points than its code. -/
structure PointMismatch where
  expected : Nat
  found : Nat
deriving DecidableEq, Repr

def PointMismatch.message (e : PointMismatch) : String :=
  "Custom: Program has " ++ toString e.expected ++ " control points, but was compiled with " ++
    toString e.found

structure Report where
  program : Stmt
  /-- The control points of the statements, in source order. -/
  points : List Nat
  findings : Findings
  /-- Every statement has its point. -/
  length_points : points.length = program.pointCount
deriving DecidableEq

namespace Report

/-- The report of a program that was compiled and analysed. -/
def make (program : Stmt) (compiled : Compiled) (findings : Findings) :
    Except PointMismatch Report :=
  if h : compiled.points.length = program.pointCount then
    .ok ⟨program, compiled.points, findings, h⟩
  else .error ⟨program.pointCount, compiled.points.length⟩

/-- Four spaces for each statement that a line is inside of. -/
def indent : Nat → String
  | 0 => ""
  | depth + 1 => "    " ++ indent depth

/-- The variables at a point; nothing is known at a point that does not exist. -/
def storeNote (f : Findings) (p : Nat) : String := ((f.store? p).getD .empty).text

/-- A flag between parentheses, after a space. -/
def flagNote : Option Flag → String
  | none => ""
  | some flag => " (" ++ flag.text ++ ")"

/-- What a summary says; there is none if nothing was evaluated. -/
def summaryNote {α : Type} [DecidableEq α] [Marker α] : Option (Summary α) → String
  | none => "never evaluated"
  | some s => s.text

/-- The line above an assignment. -/
def assignNote (f : Findings) (p : Nat) : String :=
  let rhs := f.rightHandSide? p
  storeNote f p ++ " Right-hand side: " ++ summaryNote rhs ++ flagNote (Flag.ofRightHandSide? rhs)

/-- The line above a conditional or a loop. -/
def guardNote (f : Findings) (p : Nat) (isLoop : Bool) : String :=
  let guard := f.guard? p
  storeNote f p ++ " Boolean guard: " ++ summaryNote guard ++ flagNote (Flag.ofGuard? guard isLoop)

/-- The lines of a statement, and the control points that are left for what
follows it.  `close` is written at the end of the last line.  There are no lines
if the points do not suffice. -/
def lines (f : Findings) (depth : Nat) (close : String) :
    Stmt → List Nat → Option (List String × List Nat)
  | .assign x e, p :: ps =>
    some ([indent depth ++ assignNote f p, indent depth ++ x ++ " := " ++ e.text ++ close], ps)
  | .skip, ps => some ([indent depth ++ "skip" ++ close], ps)
  | .seq s t, ps => do
    let (first, ps) ← lines f depth ";" s ps
    let (second, ps) ← lines f depth close t ps
    some (first ++ second, ps)
  | .cond g s t, p :: ps => do
    let (yes, ps) ← lines f (depth + 1) "" s ps
    let (no, ps) ← lines f (depth + 1) close t ps
    some ([indent depth ++ guardNote f p false, indent depth ++ "if " ++ g.text ++ " then"] ++
      yes ++ [indent depth ++ "else"] ++ no, ps)
  | .loop g s, p :: ps => do
    let (body, ps) ← lines f (depth + 1) close s ps
    some ([indent depth ++ guardNote f p true, indent depth ++ "while " ++ g.text ++ " do"] ++
      body, ps)
  | .attempt s t, p :: ps => do
    let (body, ps) ← lines f (depth + 1) "" s ps
    let (handler, ps) ← lines f (depth + 1) close t ps
    some ([indent depth ++ storeNote f p, indent depth ++ "try"] ++ body ++
      [indent depth ++ "catch"] ++ handler, ps)
  | _, [] => none

/-- A statement takes as many points as it has, from the front. -/
theorem lines_eq_some (f : Findings) (depth : Nat) (close : String) (s : Stmt) (ps : List Nat)
    (h : s.pointCount ≤ ps.length) :
    ∃ ls, lines f depth close s ps = some (ls, ps.drop s.pointCount) := by
  induction s generalizing depth close ps with
  | assign x e =>
    cases ps with
    | nil => simp [Stmt.pointCount] at h
    | cons p ps => exact ⟨_, rfl⟩
  | skip => cases ps <;> exact ⟨_, rfl⟩
  | seq s t ihs iht =>
    simp only [Stmt.pointCount] at h
    obtain ⟨ls, hs⟩ := ihs depth ";" ps (by omega)
    obtain ⟨ms, ht⟩ := iht depth close (ps.drop s.pointCount) (by simp; omega)
    exact ⟨ls ++ ms, by simp [lines, hs, ht, Stmt.pointCount]⟩
  | cond g s t ihs iht =>
    cases ps with
    | nil => simp [Stmt.pointCount] at h
    | cons p ps =>
      simp only [Stmt.pointCount, List.length_cons] at h
      obtain ⟨ls, hs⟩ := ihs (depth + 1) "" ps (by omega)
      obtain ⟨ms, ht⟩ := iht (depth + 1) close (ps.drop s.pointCount) (by simp; omega)
      simp [lines, hs, ht, Stmt.pointCount]
  | loop g s ih =>
    cases ps with
    | nil => simp [Stmt.pointCount] at h
    | cons p ps =>
      simp only [Stmt.pointCount, List.length_cons] at h
      obtain ⟨ls, hs⟩ := ih (depth + 1) close ps (by omega)
      simp [lines, hs, Stmt.pointCount]
  | attempt s t ihs iht =>
    cases ps with
    | nil => simp [Stmt.pointCount] at h
    | cons p ps =>
      simp only [Stmt.pointCount, List.length_cons] at h
      obtain ⟨ls, hs⟩ := ihs (depth + 1) "" ps (by omega)
      obtain ⟨ms, ht⟩ := iht (depth + 1) close (ps.drop s.pointCount) (by simp; omega)
      simp [lines, hs, ht, Stmt.pointCount]

/-- The last line of a report. -/
def endNote (f : Findings) : String := storeNote f f.lastPoint ++ " (" ++ f.termination ++ ")"

/-- The lines of the program of a report. -/
def body? (r : Report) : Option (List String) :=
  (lines r.findings 0 "" r.program r.points).map (·.1)

theorem body?_isSome (r : Report) : r.body?.isSome := by
  obtain ⟨ls, h⟩ :=
    lines_eq_some r.findings 0 "" r.program r.points (Nat.le_of_eq r.length_points.symm)
  simp [body?, h]

/-- The report as text, without a line break at its end. -/
def text (r : Report) : String :=
  "\n".intercalate (r.body?.get r.body?_isSome ++ [endNote r.findings])

end Report

end SignAnalysis
