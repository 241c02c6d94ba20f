import TreeCheck.Main
import TreeCheck.Session
import TreeCheck.Tree.Build
import TreeCheck.Tree.Walk
import TreeCheck.Proofs.Check.Effect
import TreeCheck.Proofs.Check.Coverage
import TreeCheck.Proofs.Check.Typing
import TreeCheck.Proofs.Check.Admission
import TreeCheck.Proofs.Check.Counting
import TreeCheck.Proofs.Json.Grammar
import TreeCheck.Proofs.Json.Values
import TreeCheck.Proofs.Json.Lexemes
import TreeCheck.Proofs.Json.Scan
import TreeCheck.Proofs.Document.Conform
import TreeCheck.Proofs.Document.Describe
import TreeCheck.Proofs.Document.Parse
import TreeCheck.Proofs.Number.Rounding
import TreeCheck.Proofs.Number.Shortest
import TreeCheck.Proofs.Json.Numerals
import TreeCheck.Proofs.Json.Print
import TreeCheck.Proofs.Document.RoundTrip
import TreeCheck.Proofs.Check.Sessions
import TreeCheck.Proofs.Check.Renaming
import TreeCheck.Proofs.Document.Pointer
import TreeCheck.Proofs.Document.Faults
import TreeCheck.Proofs.Command.Readings
import TreeCheck.Proofs.Command.Outcome
import TreeCheck.Proofs.Check.Findings
import TreeCheck.Proofs.Check.Shape
import TreeCheck.Proofs.Check.Truthful
import TreeCheck.Proofs.Check.Core
import TreeCheck.Proofs.Check.Flat
import TreeCheck.Proofs.Check.Commuting
import TreeCheck.Proofs.Json.Lines
import TreeCheck.Proofs.Log.Records
import TreeCheck.Proofs.Check.Trace
import TreeCheck.Proofs.Check.Runs
import TreeCheck.Proofs.Check.SingleUse
import TreeCheck.Proofs.Log.RunLog
import TreeCheck.Proofs.Check.Alike
import TreeCheck.Proofs.Check.Weakening
import TreeCheck.Proofs.Check.Replay
import TreeCheck.Proofs.Check.Returns
import TreeCheck.Proofs.Check.Strip
import TreeCheck.Proofs.Check.Locality
import TreeCheck.Proofs.Check.Operands
import TreeCheck.Proofs.Document.KeyOrder
import TreeCheck.Proofs.Log.TypeTrace
import TreeCheck.Proofs.Check.FirstDeclaration
import TreeCheck.Proofs.Tree.Preorder
import TreeCheck.Proofs.Command.Reports
