import FunCompiler.Program
import FunCompiler.Text.Utf8
import FunCompiler.Text.Numeral
import FunCompiler.Source.Parser
import FunCompiler.Source.Unparse
import FunCompiler.Draft
import FunCompiler.Program.Check
import FunCompiler.Json.Writer
import FunCompiler.Json.Reader
import FunCompiler.Program.Encode
import FunCompiler.Program.Load
import FunCompiler.Asm.Decode
import FunCompiler.Semantics.Eval
import FunCompiler.Semantics.Machine
import FunCompiler.Compile
import FunCompiler.Link
import FunCompiler.Cli.Options
import FunCompiler.Cli.Run
import FunCompiler.Main
import FunCompiler.Proofs.Runs
import FunCompiler.Proofs.Machine
import FunCompiler.Proofs.Emission
import FunCompiler.Proofs.Labels
import FunCompiler.Proofs.Layout
import FunCompiler.Proofs.Accepted
import FunCompiler.Proofs.Simulation.Judgment
import FunCompiler.Proofs.Simulation.Frame
import FunCompiler.Proofs.Simulation.Contract
import FunCompiler.Proofs.Simulation.Expr
import FunCompiler.Proofs.Simulation.Stmt
import FunCompiler.Proofs.Simulation.Run
import FunCompiler.Proofs.Preservation
import FunCompiler.Proofs.EntryFrame
import FunCompiler.Proofs.Mentions
import FunCompiler.Proofs.Linkage
import FunCompiler.Proofs.Globals
import FunCompiler.Proofs.Constructs
import FunCompiler.Proofs.Diagnostics
import FunCompiler.Proofs.Drafts
import FunCompiler.Proofs.Source.Lexing
import FunCompiler.Proofs.Source.RoundTrip
import FunCompiler.Proofs.Source.Grammar
import FunCompiler.Proofs.Source.Scanning
import FunCompiler.Proofs.Source.Soundness
import FunCompiler.Proofs.Source.Completion
import FunCompiler.Proofs.Source.Faults
import FunCompiler.Proofs.Json.Grammar
import FunCompiler.Proofs.Json.Writing
import FunCompiler.Proofs.Loading
import FunCompiler.Proofs.Source.Spacing
import FunCompiler.Proofs.Composition
import FunCompiler.Proofs.Renaming
import FunCompiler.Proofs.Source.Literals
import FunCompiler.Proofs.Accounting
import FunCompiler.Proofs.Decoding
import FunCompiler.Proofs.Targets
import FunCompiler.Proofs.Pipeline
import FunCompiler.Proofs.Numerals
import FunCompiler.Proofs.Rounding
import FunCompiler.Proofs.Schema
import FunCompiler.Proofs.SourceFiles
import FunCompiler.Proofs.CommandLine
import FunCompiler.Proofs.StackDiscipline
import FunCompiler.Proofs.Alignment
