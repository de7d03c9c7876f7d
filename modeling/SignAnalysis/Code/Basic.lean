/-
Code of the abstract machine.

A program is compiled to a list of instructions for a machine with an operand
stack.  Conditionals, loops and try blocks keep the code of their parts inside
the instruction.  Every instruction carries the control point of the statement
that it belongs to.

* `Instruction`, `Code` — with decidable equality at every depth;
* `Code.highest?` — the largest control point in a piece of code;
* `Code.wordCount` — the number of machine words, which control points are;
* `Code.splice`, `Code.advance` — what remains to be executed is code as well:
  new code goes in front of it, and an executed instruction is taken away.
-/
import SignAnalysis.Store

namespace SignAnalysis

/-- The operations that contain no code. -/
inductive Operation where
  | push (value : Int)
  | truth (value : Bool)
  | fetch (name : Var)
  | store (name : Var)
  | negate
  | noop
  | arith (op : ArithOp)
  | compare (op : CompareOp)
  | conj
deriving DecidableEq, Repr

/-- An instruction and its control point.  A `dispatch` stands where the code of
a try block ends; it runs its handler if the block has raised. -/
inductive Instruction where
  | basic (point : Nat) (op : Operation)
  | branch (point : Nat) (yes no : List Instruction)
  | loop (point : Nat) (guard body : List Instruction)
  | attempt (point : Nat) (body handler : List Instruction)
  | dispatch (point : Nat) (handler : List Instruction)

/-- A piece of code: instructions in the order in which they are executed. -/
abbrev Code := List Instruction

namespace Instruction

/-- The control point of the instruction itself. -/
def point : Instruction → Nat
  | basic p _ | branch p _ _ | loop p _ _ | attempt p _ _ | dispatch p _ => p

def isStore : Instruction → Bool
  | basic _ (.store _) => true
  | _ => false

def isBranch : Instruction → Bool
  | branch .. => true
  | _ => false

end Instruction

/-! ### Equality -/

mutual

/-- Equality of instructions, with all the code inside them. -/
def Instruction.same : Instruction → Instruction → Bool
  | .basic p o, .basic q u => p == q && o == u
  | .branch p a b, .branch q c d => p == q && Code.same a c && Code.same b d
  | .loop p a b, .loop q c d => p == q && Code.same a c && Code.same b d
  | .attempt p a b, .attempt q c d => p == q && Code.same a c && Code.same b d
  | .dispatch p a, .dispatch q c => p == q && Code.same a c
  | _, _ => false

/-- Equality of pieces of code. -/
def Code.same : List Instruction → List Instruction → Bool
  | [], [] => true
  | i :: c, j :: d => Instruction.same i j && Code.same c d
  | _, _ => false

end

mutual

theorem Instruction.same_iff : ∀ i j : Instruction, i.same j = true ↔ i = j
  | .basic p o, j => by cases j <;> simp [Instruction.same]
  | .branch p a b, j => by
    cases j <;> simp [Instruction.same, Code.same_iff a, Code.same_iff b, and_assoc]
  | .loop p a b, j => by
    cases j <;> simp [Instruction.same, Code.same_iff a, Code.same_iff b, and_assoc]
  | .attempt p a b, j => by
    cases j <;> simp [Instruction.same, Code.same_iff a, Code.same_iff b, and_assoc]
  | .dispatch p a, j => by cases j <;> simp [Instruction.same, Code.same_iff a]

theorem Code.same_iff : ∀ c d : List Instruction, Code.same c d = true ↔ c = d
  | [], d => by cases d <;> simp [Code.same]
  | i :: c, d => by cases d <;> simp [Code.same, Instruction.same_iff i, Code.same_iff c]

end

instance : DecidableEq Instruction := fun i j =>
  decidable_of_iff _ (Instruction.same_iff i j)

/-! ### Control points -/

mutual

/-- The largest control point in an instruction and in the code inside it. -/
def Instruction.highest : Instruction → Nat
  | .basic p _ => p
  | .branch p a b | .loop p a b | .attempt p a b => max p (max (Code.highest a) (Code.highest b))
  | .dispatch p a => max p (Code.highest a)

/-- The largest control point in a piece of code, and 0 if it is empty. -/
def Code.highest : List Instruction → Nat
  | [] => 0
  | i :: c => max i.highest (Code.highest c)

end

/-- The largest control point in a piece of code, if there is any. -/
def Code.highest? (c : Code) : Option Nat :=
  if c.isEmpty then none else some (Code.highest c)

/-! ### Words -/

mutual

/-- An instruction and all instructions inside it. -/
def Instruction.instructions : Instruction → List Instruction
  | .basic p op => [.basic p op]
  | .branch p a b => .branch p a b :: (Code.instructions a ++ Code.instructions b)
  | .loop p a b => .loop p a b :: (Code.instructions a ++ Code.instructions b)
  | .attempt p a b => .attempt p a b :: (Code.instructions a ++ Code.instructions b)
  | .dispatch p a => .dispatch p a :: Code.instructions a

/-- The instructions of a piece of code and all instructions inside them. -/
def Code.instructions : List Instruction → List Instruction
  | [] => []
  | i :: c => i.instructions ++ Code.instructions c

end

/-- The number of machine words.  Words have 64 bits, or more for code that is too large for a
memory with such addresses; an instruction takes more than one cell of it. -/
def Code.wordCount (c : Code) : Nat := max 18446744073709551616 (2 * (Code.instructions c).length)

/-! ### The code that remains -/

/-- Puts code in front of what remains. -/
def Code.splice (code remaining : Code) : Code := code ++ remaining

/-- Takes away the instruction that was executed, if any remained. -/
def Code.advance (remaining : Code) : Code := remaining.tail

end SignAnalysis
