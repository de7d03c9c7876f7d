/-
Everything that can go wrong between a file and its report.
-/
import SignAnalysis.Program.SyntaxError
import SignAnalysis.Report.Basic

namespace SignAnalysis

/-- Why a file cannot be read as a text. -/
inductive FileError where
  | missing
  | directory
  | notText
  /-- Another problem, in the words of the system. -/
  | other (description : String)
deriving DecidableEq, Repr

def FileError.description : FileError → String
  | missing => "No such file or directory (os error 2)"
  | directory => "Is a directory (os error 21)"
  | notText => "stream did not contain valid UTF-8"
  | other d => d

inductive Error where
  | file (error : FileError)
  | program (error : SyntaxError)
  | search (obstacle : Obstacle)
  | report (mismatch : PointMismatch)
  /-- The search was given up before it came to its end. -/
  | unfinished
deriving DecidableEq

def Error.message : Error → String
  | file e => "Io error: " ++ e.description
  | program e => e.message
  | search o => o.message
  | report m => m.message
  | unfinished => "Exploration was given up before its end"

end SignAnalysis
