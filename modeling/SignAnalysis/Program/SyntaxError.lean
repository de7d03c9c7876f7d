/-
What can be wrong with the text of a program, and where.

A `SyntaxError` has a position and a problem.  Reading a program first splits
the whole text into lexemes, so a problem of the spelling is reported before
any problem of the grammar.
-/
import SignAnalysis.Program.Token

namespace SignAnalysis

/-- A place in a text; lines and columns count from 1, columns in characters. -/
structure Position where
  line : Nat
  column : Nat
deriving DecidableEq, Repr

namespace Position

/-- Where a text begins. -/
def start : Position := ⟨1, 1⟩

/-- The place after a character.  Only a line feed ends a line. -/
def next (p : Position) (c : Char) : Position :=
  if c = '\n' then ⟨p.line + 1, 1⟩ else ⟨p.line, p.column + 1⟩

end Position

/-- What the grammar asks for at a place. -/
inductive Expectation where
  | token (t : Token)
  | statement
  | expression
  | comparison
  | endOfProgram
deriving DecidableEq, Repr

def Expectation.text : Expectation → String
  | token t => t.text
  | statement => "a statement"
  | expression => "an arithmetic expression"
  | comparison => "`=` or `<=`"
  | endOfProgram => "`;` or end of input"

inductive SyntaxProblem where
  /-- No token begins with the character. -/
  | unexpectedCharacter (c : Char)
  /-- The digits make a number that is too large. -/
  | numberOutOfRange (digits : String)
  /-- The grammar asks for something else than the token that is there, or the
  text ends. -/
  | unexpectedToken (expected : Expectation) (found : Option Token)
deriving DecidableEq, Repr

def SyntaxProblem.text : SyntaxProblem → String
  | unexpectedCharacter c => "unexpected character `" ++ c.toString ++ "`"
  | numberOutOfRange digits => "number `" ++ digits ++ "` is out of range"
  | unexpectedToken expected found =>
    "expected " ++ expected.text ++ ", found " ++ (found.map Token.text).getD "end of input"

structure SyntaxError where
  position : Position
  problem : SyntaxProblem
deriving DecidableEq, Repr

def SyntaxError.message (e : SyntaxError) : String :=
  "Parse error at " ++ toString e.position.line ++ ":" ++ toString e.position.column ++ ": " ++
    e.problem.text

end SignAnalysis
