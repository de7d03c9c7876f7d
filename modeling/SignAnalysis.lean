import SignAnalysis.Code.Basic
import SignAnalysis.Code.OfProgram
import SignAnalysis.Code.Printer
import SignAnalysis.CommandLine.Arguments
import SignAnalysis.CommandLine.Session
import SignAnalysis.Error
import SignAnalysis.Findings
import SignAnalysis.Machine.Configuration
import SignAnalysis.Machine.ConfigurationSet
import SignAnalysis.Machine.Step
import SignAnalysis.Main
import SignAnalysis.Marker.Basic
import SignAnalysis.Marker.Sign
import SignAnalysis.Marker.Summary
import SignAnalysis.Marker.Truth
import SignAnalysis.Operator
import SignAnalysis.Program.Basic
import SignAnalysis.Program.Lexeme
import SignAnalysis.Program.Parser
import SignAnalysis.Program.Printer
import SignAnalysis.Program.SyntaxError
import SignAnalysis.Program.Token
import SignAnalysis.Proofs.Accounts
import SignAnalysis.Proofs.Aggregation
import SignAnalysis.Proofs.Alignment
import SignAnalysis.Proofs.Annotations
import SignAnalysis.Proofs.Arms
import SignAnalysis.Proofs.Beginnings
import SignAnalysis.Proofs.BigStep
import SignAnalysis.Proofs.BreadthFirst
import SignAnalysis.Proofs.Catching
import SignAnalysis.Proofs.Continuations
import SignAnalysis.Proofs.Covering
import SignAnalysis.Proofs.Cursor
import SignAnalysis.Proofs.CursorSafety
import SignAnalysis.Proofs.Delivery
import SignAnalysis.Proofs.Entry
import SignAnalysis.Proofs.Erasure
import SignAnalysis.Proofs.ErrorPlaces
import SignAnalysis.Proofs.Evaluation
import SignAnalysis.Proofs.Except
import SignAnalysis.Proofs.Execution
import SignAnalysis.Proofs.Exploration
import SignAnalysis.Proofs.Finiteness
import SignAnalysis.Proofs.Flags
import SignAnalysis.Proofs.Following
import SignAnalysis.Proofs.Frames
import SignAnalysis.Proofs.Grammar
import SignAnalysis.Proofs.Growth
import SignAnalysis.Proofs.LastPoint
import SignAnalysis.Proofs.Lattice
import SignAnalysis.Proofs.Layout
import SignAnalysis.Proofs.Lexing
import SignAnalysis.Proofs.Limit
import SignAnalysis.Proofs.Lookahead
import SignAnalysis.Proofs.Moments
import SignAnalysis.Proofs.Outcomes
import SignAnalysis.Proofs.ParserCompleteness
import SignAnalysis.Proofs.ParserSoundness
import SignAnalysis.Proofs.Points
import SignAnalysis.Proofs.Precision
import SignAnalysis.Proofs.PrintedText
import SignAnalysis.Proofs.Progress
import SignAnalysis.Proofs.Readers
import SignAnalysis.Proofs.Runs
import SignAnalysis.Proofs.Soundness
import SignAnalysis.Proofs.StackShape
import SignAnalysis.Proofs.StoreEffects
import SignAnalysis.Proofs.TryDepth
import SignAnalysis.Proofs.Unwinding
import SignAnalysis.Proofs.Viability
import SignAnalysis.Report.Basic
import SignAnalysis.Report.Flag
import SignAnalysis.Search
import SignAnalysis.Store
import SignAnalysis.Text.Space
