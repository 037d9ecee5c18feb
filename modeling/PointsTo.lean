import PointsTo.Id
import PointsTo.Program.Basic
import PointsTo.Program.Build
import PointsTo.Hierarchy.Chain
import PointsTo.Hierarchy.Subtypes
import PointsTo.Hierarchy.Calls
import PointsTo.Entry
import PointsTo.Grammar
import PointsTo.Text.Token
import PointsTo.Text.Lexer
import PointsTo.Text.Tree
import PointsTo.Text.Format
import PointsTo.Text.Read
import PointsTo.CallGraph
import PointsTo.Catalog
import PointsTo.Queue
import PointsTo.Log
import PointsTo.Solver.Heap
import PointsTo.Solver.Pointer
import PointsTo.Solver.FlowGraph
import PointsTo.Solver.Rules
import PointsTo.Solver.State
import PointsTo.Solver.Run
import PointsTo.Solver.Report
import PointsTo.Analysis
import PointsTo.CommandLine.Args
import PointsTo.CommandLine.Files
import PointsTo.CommandLine.Run
import PointsTo.Main
import PointsTo.Proofs.Tables
import PointsTo.Proofs.Facts
import PointsTo.Proofs.Effects
import PointsTo.Proofs.Ranges
import PointsTo.Proofs.Operations
import PointsTo.Proofs.Programs
import PointsTo.Proofs.Building
import PointsTo.Proofs.Reading
import PointsTo.Proofs.Moves
import PointsTo.Proofs.Support
import PointsTo.Proofs.Passes
import PointsTo.Proofs.Runs
import PointsTo.Proofs.Closure
import PointsTo.Proofs.Termination
import PointsTo.Proofs.Loops
import PointsTo.Proofs.LeastSolution
import PointsTo.Proofs.Execution
import PointsTo.Proofs.HierarchyCalls
import PointsTo.Proofs.Subgraph
import PointsTo.Proofs.Lookups
import PointsTo.Proofs.Grammars
import PointsTo.Proofs.Renderings
import PointsTo.Proofs.Recognition
import PointsTo.Proofs.Transfer
import PointsTo.Proofs.Outcomes
import PointsTo.Proofs.Awaiting
import PointsTo.Proofs.SyntaxErrors
import PointsTo.Proofs.Growth
import PointsTo.Proofs.Coherence
import PointsTo.Proofs.Outline
import PointsTo.Proofs.Resolution
import PointsTo.Proofs.Members
import PointsTo.Proofs.Consistency
import PointsTo.Proofs.Acceptance
import PointsTo.Proofs.Isomorphism
import PointsTo.Proofs.Lexing
import PointsTo.Proofs.Printing
import PointsTo.Proofs.Declarations
import PointsTo.Proofs.RoundTrip
import PointsTo.Proofs.Monotonicity
import PointsTo.Proofs.Reachability
import PointsTo.Proofs.WellFormedness
import PointsTo.Proofs.Unambiguity
import PointsTo.Proofs.DeclarationOrder
import PointsTo.Proofs.NameChecks
import PointsTo.Proofs.Layout
import PointsTo.Proofs.Lines
import PointsTo.Proofs.Superclasses
import PointsTo.Proofs.Subtypes
import PointsTo.Proofs.Acts
import PointsTo.Proofs.Receivers
import PointsTo.Proofs.Visits
import PointsTo.Proofs.ArrayAliases
import PointsTo.Proofs.FailedOperations
import PointsTo.Proofs.UsesIndex
import PointsTo.Proofs.Patterns
import PointsTo.Proofs.Tiling
import PointsTo.Proofs.BlockComments
import PointsTo.Proofs.Histories
import PointsTo.Proofs.Identifiers
import PointsTo.Proofs.Labels
import PointsTo.Proofs.Labelling
