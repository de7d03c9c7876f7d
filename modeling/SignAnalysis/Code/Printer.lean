/-
The text of code.

An instruction is written as its name, its arguments, and its control point
after an `@`; code inside an instruction stands between brackets.
-/
import SignAnalysis.Code.Basic

namespace SignAnalysis

/-- The name of an operation. -/
def Operation.mnemonic : Operation → String
  | push _ => "PUSH"
  | truth true => "TRUE"
  | truth false => "FALSE"
  | fetch _ => "FETCH"
  | store _ => "STORE"
  | negate => "NEG"
  | noop => "NOOP"
  | arith op => op.mnemonic
  | compare op => op.mnemonic
  | conj => "AND"

/-- An operation with its argument. -/
def Operation.text : Operation → String
  | push n => "PUSH-" ++ toString n
  | fetch x => "FETCH-" ++ x
  | store x => "STORE-" ++ x
  | op => op.mnemonic

/-- The name of an instruction.  A dispatch is a part of its try block. -/
def Instruction.mnemonic : Instruction → String
  | basic _ op => op.mnemonic
  | branch .. => "BRANCH"
  | loop .. => "LOOP"
  | attempt .. | dispatch .. => "TRY"

mutual

def Instruction.text : Instruction → String
  | .basic p op => op.text ++ "@" ++ toString p
  | .branch p a b => "BRANCH([" ++ Code.text a ++ "], [" ++ Code.text b ++ "])@" ++ toString p
  | .loop p a b => "LOOP([" ++ Code.text a ++ "], [" ++ Code.text b ++ "])@" ++ toString p
  | .attempt p a b => "TRY([" ++ Code.text a ++ "], [" ++ Code.text b ++ "])@" ++ toString p
  | .dispatch p a => "CATCH([" ++ Code.text a ++ "])@" ++ toString p

/-- The instructions of a piece of code, with commas between them. -/
def Code.text : List Instruction → String
  | [] => ""
  | [i] => i.text
  | i :: c => i.text ++ ", " ++ Code.text c

end

end SignAnalysis
