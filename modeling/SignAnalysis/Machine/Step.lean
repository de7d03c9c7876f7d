/-
The step relation of the abstract machine.

`Configuration.step` executes the next instruction and returns every
configuration that may come of it, in a fixed order.  It fails only on code
that no program compiles to:

* nothing remains to be executed;
* an operand is missing, or is of the wrong sort;
* a dispatch is reached outside of every try block.

Operands are taken one at a time from the top, so the first one that is missing
or wrong is the one reported.
-/
import SignAnalysis.Machine.Configuration

namespace SignAnalysis

/-- The sorts of operands. -/
inductive OperandSort where
  | integer
  | boolean
deriving DecidableEq, Repr

def OperandSort.text : OperandSort → String
  | integer => "integer"
  | boolean => "boolean"

/-- Why a configuration cannot step. -/
inductive Fault where
  | nothingRemains
  | missingOperand (instruction : Instruction)
  | wrongOperand (expected : OperandSort) (instruction : Instruction)
  | strayDispatch (instruction : Instruction)
deriving DecidableEq

def Fault.message : Fault → String
  | nothingRemains => "Attempted to step a configuration with an empty continuation"
  | missingOperand i => "Operand stack underflow executing " ++ i.text
  | wrongOperand s i => "Expected " ++ s.text ++ " operand executing " ++ i.text
  | strayDispatch i => "Reached a try dispatch point outside of any try block: " ++ i.text

namespace Configuration

/-- Takes an integer from the stack, for the instruction `i`. -/
def popInt (c : Configuration) (i : Instruction) : Except Fault (Sign × Configuration) :=
  match c.stack with
  | [] => .error (.missingOperand i)
  | .bool _ :: _ => .error (.wrongOperand .integer i)
  | .int a :: rest => .ok (a, { c with stack := rest })

/-- Takes a truth value from the stack, for the instruction `i`. -/
def popBool (c : Configuration) (i : Instruction) : Except Fault (Truth × Configuration) :=
  match c.stack with
  | [] => .error (.missingOperand i)
  | .int _ :: _ => .error (.wrongOperand .boolean i)
  | .bool b :: rest => .ok (b, { c with stack := rest })

/-- One successor for each outcome, with the outcome on top of the stack. -/
def fork (c : Configuration) (outcomes : List Operand) : List Configuration :=
  outcomes.map c.push

/-- Stores a value.  An error raises an exception, and while an exception is
pending no variable changes; either way the variable becomes known. -/
def storeValue (c : Configuration) (x : Var) (m : Sign) : Configuration :=
  if m = .error then (c.declare x).raise
  else if c.exceptional then c.declare x
  else c.assign x m

/-- The ways to go on after a guard: an error raises and enters neither arm. -/
def enterArms (c : Configuration) (g : Truth) (yes no : Code) : List Configuration :=
  (if g = .error then [c.raise] else []) ++
  (if g.mayHold then [c.splice yes] else []) ++
  (if g.mayFail then [c.splice no] else [])

/-- Leaves a try block.  The handler runs if the pending exception was raised in
this block and in none inside it. -/
def leaveTry (c : Configuration) (handler : Code) : Configuration :=
  if c.exceptional ∧ c.exceptionDepth = c.tryDepth then
    { c.splice handler with exceptional := false, exceptionDepth := 0, tryDepth := c.tryDepth - 1 }
  else { c with tryDepth := c.tryDepth - 1 }

/-- Executes an operation of the instruction `i`, which has been taken away from
the code that remains. -/
def perform (c : Configuration) (i : Instruction) : Operation → Except Fault (List Configuration)
  | .push n => .ok [c.push (.int (.ofInt n))]
  | .truth b => .ok [c.push (.bool (.ofBool b))]
  | .fetch x => .ok [c.push (.int (c.valueOf x))]
  | .store x => do
    let (m, c) ← c.popInt i
    .ok [c.storeValue x m]
  | .negate => do
    let (b, c) ← c.popBool i
    .ok [c.push (.bool b.not)]
  | .noop => .ok [c]
  | .arith op => do
    let (l, c) ← c.popInt i
    let (r, c) ← c.popInt i
    .ok (c.fork ((Sign.arith op l r).map .int))
  | .compare op => do
    let (l, c) ← c.popInt i
    let (r, c) ← c.popInt i
    .ok (c.fork ((Sign.compare op l r).map .bool))
  | .conj => do
    let (l, c) ← c.popBool i
    let (r, c) ← c.popBool i
    .ok [c.push (.bool (l.and r))]

/-- Executes an instruction that has been taken away from the code that remains.
A loop becomes a conditional with the loop itself at the end of its body.  A try
block puts a dispatch behind its body, with the control point of the handler. -/
def execute (c : Configuration) (i : Instruction) : Except Fault (List Configuration) :=
  match i with
  | .basic _ op => c.perform i op
  | .branch _ yes no => do
    let (g, c) ← c.popBool i
    .ok (c.enterArms g yes no)
  | .loop p guard body =>
    .ok [c.splice (guard ++ [.branch p (body ++ [i]) [.basic p .noop]])]
  | .attempt p body handler =>
    let dispatch := .dispatch ((handler.head?.map (·.point)).getD p) handler
    .ok [{ c.splice (body ++ [dispatch]) with tryDepth := c.tryDepth + 1 }]
  | .dispatch _ handler =>
    if c.tryDepth = 0 then .error (.strayDispatch i) else .ok [c.leaveTry handler]

/-- The configurations that may come of executing the next instruction. -/
def step (c : Configuration) : Except Fault (List Configuration) :=
  match c.code with
  | [] => .error .nothingRemains
  | i :: rest => { c with code := rest }.execute i

/-- `d` may come of a step from `c`. -/
def Steps (c d : Configuration) : Prop := ∃ ds, c.step = .ok ds ∧ d ∈ ds

/-- The configurations that any number of steps may come to. -/
inductive Reachable (c : Configuration) : Configuration → Prop
  | refl : Reachable c c
  | tail {d e : Configuration} : Reachable c d → d.Steps e → Reachable c e

end Configuration

end SignAnalysis
