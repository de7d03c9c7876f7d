/-
Configurations of the abstract machine.

A configuration holds what is known of the variables, the operands of the
expressions under evaluation, and the code that remains.  An exception does not
unwind the code: it sets a flag under which assignments have no effect, until
the dispatch of the try block in which it was raised clears it.  Two depths
tell which dispatch that is:

* `tryDepth` — the number of try blocks that have been entered and not left;
* `exceptionDepth` — the depth at which the pending exception was raised, and 0
  if there is none.
-/
import SignAnalysis.Code.Printer

namespace SignAnalysis

/-- A value on the operand stack. -/
inductive Operand where
  | int (sign : Sign)
  | bool (truth : Truth)
deriving DecidableEq, Repr

def Operand.text : Operand → String
  | int a => a.text
  | bool b => b.text

/-- A state of the abstract machine. -/
structure Configuration where
  store : Store
  /-- The operands, the top one first. -/
  stack : List Operand
  /-- The code that remains to be executed. -/
  code : Code
  /-- Whether an exception is pending. -/
  exceptional : Bool
  tryDepth : Nat
  exceptionDepth : Nat
deriving DecidableEq

namespace Configuration

/-- The configuration in which execution of a piece of code begins. -/
def initial (code : Code) : Configuration :=
  { store := .empty, stack := [], code, exceptional := false, tryDepth := 0, exceptionDepth := 0 }

/-- The instruction that is executed next. -/
def head? (c : Configuration) : Option Instruction := c.code.head?

/-- The control point of the next instruction. -/
def point? (c : Configuration) : Option Nat := c.head?.map (·.point)

/-- Nothing remains to be executed. -/
def isTerminal (c : Configuration) : Bool := c.code.isEmpty

/-- The sign of a variable. -/
def valueOf (c : Configuration) (x : Var) : Sign := c.store.get x

/-- Sets a variable. -/
def assign (c : Configuration) (x : Var) (m : Sign) : Configuration :=
  { c with store := c.store.insert x m }

/-- Makes a variable known without changing its sign. -/
def declare (c : Configuration) (x : Var) : Configuration :=
  { c with store := c.store.declare x }

/-- Puts an operand on top of the stack. -/
def push (c : Configuration) (o : Operand) : Configuration :=
  { c with stack := o :: c.stack }

/-- Puts code in front of the code that remains. -/
def splice (c : Configuration) (code : Code) : Configuration :=
  { c with code := Code.splice code c.code }

/-- Raises an exception, unless one is pending already. -/
def raise (c : Configuration) : Configuration :=
  if c.exceptional then c else { c with exceptional := true, exceptionDepth := c.tryDepth }

def text (c : Configuration) : String :=
  "store: " ++ c.store.text ++
  " stack: [" ++ ", ".intercalate (c.stack.map Operand.text) ++
  "] exceptional: " ++ (if c.exceptional then "true" else "false") ++
  " depth: " ++ toString c.tryDepth ++ "/" ++ toString c.exceptionDepth ++
  " code: [" ++ Code.text c.code ++ "]"

end Configuration

end SignAnalysis
