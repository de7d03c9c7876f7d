/-
The text of expressions and guards.

Arithmetic is written with all its parentheses, so its text tells the tree
apart from every other.  A conjunction is written without parentheses, since
how it is grouped makes no difference to its value; a negation puts its
operand between parentheses.
-/
import SignAnalysis.Program.Basic

namespace SignAnalysis

def Expr.text : Expr → String
  | num n => toString n
  | var x => x
  | binary op l r => "(" ++ l.text ++ " " ++ op.symbol ++ " " ++ r.text ++ ")"

def Guard.text : Guard → String
  | const true => "true"
  | const false => "false"
  | compare op l r => l.text ++ " " ++ op.symbol ++ " " ++ r.text
  | not g => "!(" ++ g.text ++ ")"
  | and l r => l.text ++ " & " ++ r.text

end SignAnalysis
