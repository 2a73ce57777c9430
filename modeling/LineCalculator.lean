import LineCalculator.Console
import LineCalculator.Cursor.Bench
import LineCalculator.Main
import LineCalculator.Session.Log
import LineCalculator.Proofs.Console.Modes
import LineCalculator.Proofs.Grammar.Counterparts
import LineCalculator.Proofs.Grammar.ImmediateSteps
import LineCalculator.Proofs.Grammar.Completeness
import LineCalculator.Proofs.Grammar.PlainFactor
import LineCalculator.Proofs.Grammar.Spacing
import LineCalculator.Proofs.Grammar.UnboundReading
import LineCalculator.Proofs.Grammar.WellFormedTrees
import LineCalculator.Proofs.Session.Unmentioned
import LineCalculator.Proofs.Session.Batching
import LineCalculator.Proofs.Environment.SameMap
import LineCalculator.Proofs.Session.InsertionOrder
import LineCalculator.Proofs.Grammar.SpacedText
import LineCalculator.Proofs.Grammar.StepPlaces
import LineCalculator.Proofs.Grammar.SpacedStatement
import LineCalculator.Proofs.Grammar.SparseText
import LineCalculator.Proofs.Grammar.DeadEnd
import LineCalculator.Proofs.Grammar.TreeText
import LineCalculator.Proofs.Expr.PostSteps
import LineCalculator.Proofs.Session.Embedding
import LineCalculator.Proofs.Session.Replay
import LineCalculator.Proofs.Cursor.Safety
import LineCalculator.Proofs.Environment.Recording
import LineCalculator.Proofs.Expr.Writes
import LineCalculator.Proofs.Console.Framing
import LineCalculator.Proofs.Session.Reevaluation
import LineCalculator.Proofs.Grammar.BoundedDepth
import LineCalculator.Proofs.Cursor.NumberReading
import LineCalculator.Proofs.Environment.ClosedForm
