import SymScript.AlgebraError
import SymScript.Arguments
import SymScript.Ast
import SymScript.Ast.Build
import SymScript.Ast.Fault
import SymScript.Ast.OfParseTree
import SymScript.Ast.OfText
import SymScript.Ast.Outline
import SymScript.Benchmark
import SymScript.Binary64
import SymScript.Command
import SymScript.CommandLine
import SymScript.Coverage
import SymScript.Decimal
import SymScript.Document
import SymScript.Drawing
import SymScript.Expr
import SymScript.Expr.Derive
import SymScript.Expr.Expand
import SymScript.Expr.Functions
import SymScript.Expr.Latex
import SymScript.Expr.Simplify
import SymScript.Expr.Substitute
import SymScript.FileTree
import SymScript.Fraction
import SymScript.Journal
import SymScript.Json
import SymScript.Json.Reader
import SymScript.Json.Writer
import SymScript.Machine
import SymScript.Machine.Frame
import SymScript.Main
import SymScript.MeasuringRound
import SymScript.ParseTree
import SymScript.ParseTree.Parser
import SymScript.Plateau
import SymScript.Profile
import SymScript.Proofs.Fraction
import SymScript.Proofs.NormalForm
import SymScript.Proofs.Order
import SymScript.RawText
import SymScript.Sample
import SymScript.Scalar
import SymScript.Session
import SymScript.Sha256
import SymScript.Suite
import SymScript.Term
import SymScript.TermGraph
import SymScript.TermGraph.Edit
import SymScript.TermGraph.Functions
import SymScript.TermSpec
import SymScript.TermView
import SymScript.Text.CodeRange
import SymScript.Text.Letter
import SymScript.Text.Lines
import SymScript.Text.Numeral
import SymScript.Text.Printable
import SymScript.Text.Quoted
import SymScript.Token
import SymScript.Token.Lexer
import SymScript.Workbench
import SymScript.Workload
import SymScript.Workload.Output
import SymScript.Workload.Programs
import SymScript.Workload.Run
import SymScript.Workload.Terms
import SymScript.Proofs.Collect
import SymScript.Proofs.FixedPoint
import SymScript.Proofs.Depth
import SymScript.Proofs.Normalization
import SymScript.Proofs.Laurent
import SymScript.Proofs.Semantics
import SymScript.Proofs.Execution
import SymScript.Proofs.Simulation
import SymScript.Proofs.Refinement
import SymScript.Proofs.Arithmetic
import SymScript.Proofs.Monomial
import SymScript.Proofs.SortKey
import SymScript.Proofs.Canonical
import SymScript.Proofs.Grammar
import SymScript.Proofs.Scanning
import SymScript.Proofs.Printing
import SymScript.Proofs.RoundTrip
import SymScript.Proofs.Reachable
import SymScript.Proofs.Scope
import SymScript.Proofs.Termination
import SymScript.Proofs.Simplified
import SymScript.Proofs.TermGraph
import SymScript.Proofs.SimplifyInPlace
import SymScript.Proofs.Values
import SymScript.Proofs.ParsingEnds
import SymScript.Proofs.Recognizer
import SymScript.Proofs.Recognition
import SymScript.Proofs.Phrases
import SymScript.Proofs.Speculation
import SymScript.Proofs.Conditions
import SymScript.Proofs.Lexemes
import SymScript.Proofs.Matches
import SymScript.Proofs.Writing
import SymScript.Proofs.ConditionText
import SymScript.Proofs.NumberOrder
import SymScript.Proofs.Congruence
import SymScript.Proofs.Powers
import SymScript.Proofs.Derivative
import SymScript.Proofs.Expansion
import SymScript.Proofs.ExpansionEnds
import SymScript.Proofs.PolynomialExpansion
import SymScript.Proofs.ExpansionValue
import SymScript.Proofs.ExpansionShape
import SymScript.Proofs.Terminals
import SymScript.Proofs.TotalOrder
import SymScript.Proofs.NodeOrder
import SymScript.Proofs.MadeNodes
import SymScript.Proofs.Opposites
import SymScript.Proofs.Commutation
import SymScript.Proofs.Evaluation
import SymScript.Proofs.FramedText
import SymScript.Proofs.Unshared
import SymScript.Proofs.Receiver
import SymScript.Proofs.Sharing
import SymScript.Proofs.FormulaText
import SymScript.Proofs.Legibility
import SymScript.Proofs.Places
import SymScript.Proofs.NumberNodes
import SymScript.Proofs.Plateau
import SymScript.Proofs.Skeleton
