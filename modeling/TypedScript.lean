import TypedScript.Binding.Basic
import TypedScript.Binding.Complaint
import TypedScript.Binding.Expr
import TypedScript.Binding.Flow
import TypedScript.Binding.Operators
import TypedScript.Binding.Program
import TypedScript.Binding.Stmt
import TypedScript.Bound.Printer
import TypedScript.Bound.Tree
import TypedScript.Bytecode.Builder
import TypedScript.Bytecode.Emission
import TypedScript.Bytecode.Listing
import TypedScript.Bytecode.Module
import TypedScript.Bytecode.Operation
import TypedScript.Bytecode.Tag
import TypedScript.Command
import TypedScript.Compile
import TypedScript.Defect
import TypedScript.Diagnostic
import TypedScript.Dispatch
import TypedScript.Editor.Basic
import TypedScript.Flags
import TypedScript.Flat.Lowering
import TypedScript.Flat.Printer
import TypedScript.Flat.Tree
import TypedScript.Host.Basic
import TypedScript.Host.Memory
import TypedScript.Image.Basic
import TypedScript.Image.Cbor
import TypedScript.Image.Layout
import TypedScript.Image.Uuid
import TypedScript.Interactive
import TypedScript.Library
import TypedScript.Machine.Arithmetic
import TypedScript.Machine.Fault
import TypedScript.Machine.Native
import TypedScript.Machine.Run
import TypedScript.Machine.State
import TypedScript.Machine.Step
import TypedScript.Main
import TypedScript.Manifest
import TypedScript.Number.Double
import TypedScript.Number.Format
import TypedScript.Number.Integer
import TypedScript.Number.Reading
import TypedScript.Operator
import TypedScript.Parsed.Parser
import TypedScript.Parsed.State
import TypedScript.Parsed.Tree
import TypedScript.Path
import TypedScript.Scope
import TypedScript.Session
import TypedScript.Source.Position
import TypedScript.Symbol
import TypedScript.Text.Blank
import TypedScript.Text.Glyph
import TypedScript.Text.Letter
import TypedScript.Text.Numeral
import TypedScript.Text.Printable
import TypedScript.Text.Quoted
import TypedScript.Text.Split
import TypedScript.Text.Utf8
import TypedScript.Token.Basic
import TypedScript.Token.Lexer
import TypedScript.Toml.Document
import TypedScript.Toml.Reader
import TypedScript.Toml.Scalar
import TypedScript.Types.Basic
import TypedScript.Types.Intrinsics
import TypedScript.Types.Registry
import TypedScript.Types.Resolution
import TypedScript.Value
import TypedScript.Proofs.Binding.Basic
import TypedScript.Proofs.Binding.Expr
import TypedScript.Proofs.Binding.Program
import TypedScript.Proofs.Binding.Routine
import TypedScript.Proofs.Bound.Induction
import TypedScript.Proofs.Bytecode.Assembly
import TypedScript.Proofs.Compilation
import TypedScript.Proofs.Execution.Basic
import TypedScript.Proofs.Execution.Bound
import TypedScript.Proofs.Execution.Expressions
import TypedScript.Proofs.Execution.Programs
import TypedScript.Proofs.Execution.Compound
import TypedScript.Proofs.Image.Cbor
import TypedScript.Proofs.Image.RoundTrip
import TypedScript.Proofs.Binding.Identity
import TypedScript.Proofs.Flat.Symbols
import TypedScript.Proofs.Machine.Natives
import TypedScript.Proofs.Types.Names
import TypedScript.Proofs.Machine.Values
import TypedScript.Proofs.Bytecode.Stacks
import TypedScript.Proofs.Bytecode.Verification
import TypedScript.Proofs.Bytecode.Balance
import TypedScript.Proofs.Machine.Moves
import TypedScript.Proofs.Machine.Cycles
import TypedScript.Proofs.Machine.Past
import TypedScript.Proofs.Machine.Alike
import TypedScript.Proofs.Machine.Parallel
import TypedScript.Proofs.Machine.Reached
import TypedScript.Proofs.Machine.Reuse
import TypedScript.Proofs.Generation
import TypedScript.Proofs.Machine.Answers
import TypedScript.Proofs.Machine.Loading
import TypedScript.Proofs.Bytecode.WellFormed
import TypedScript.Proofs.Bound.Parts
import TypedScript.Proofs.Types.Arrays
import TypedScript.Proofs.Binding.Reports
import TypedScript.Proofs.Binding.Mirrors
import TypedScript.Proofs.Binding.Lockstep
import TypedScript.Proofs.Binding.Recovery
import TypedScript.Proofs.Types.Overloads
import TypedScript.Proofs.Flat.Temporaries
import TypedScript.Proofs.Execution.Flow
import TypedScript.Proofs.Execution.Places
import TypedScript.Proofs.Binding.References
import TypedScript.Proofs.Binding.Nesting
import TypedScript.Proofs.Binding.Scoping
import TypedScript.Proofs.Reachability
import TypedScript.Proofs.Machine.Printing
import TypedScript.Proofs.Machine.Stack
import TypedScript.Proofs.Machine.Instructions
import TypedScript.Proofs.Machine.Ranges
import TypedScript.Proofs.Machine.Results
import TypedScript.Proofs.Machine.Frames
import TypedScript.Proofs.Machine.Progress
import TypedScript.Proofs.Machine.Preservation
import TypedScript.Proofs.Machine.Soundness
import TypedScript.Proofs.Machine.Integers
import TypedScript.Proofs.Number.Rounding
import TypedScript.Proofs.Binding.Literals
import TypedScript.Proofs.Types.Distinct
import TypedScript.Proofs.Binding.Imports
import TypedScript.Proofs.Refinement.Expressions
import TypedScript.Proofs.Refinement.Generation
import TypedScript.Proofs.Token.Layout
import TypedScript.Proofs.Token.Written
import TypedScript.Proofs.Parsed.Recovery
import TypedScript.Proofs.Parsed.Completeness
import TypedScript.Proofs.Parsed.Literals
import TypedScript.Proofs.Parsed.Bare
import TypedScript.Proofs.Parsed.Before
import TypedScript.Proofs.Parsed.Expressions
import TypedScript.Proofs.Editor.Lookup
import TypedScript.Proofs.Execution.Casts
import TypedScript.Proofs.Parsed.Nesting
import TypedScript.Proofs.Sessions
import TypedScript.Proofs.Machine.Comparisons
import TypedScript.Proofs.Machine.Tables
import TypedScript.Proofs.Types.Indexed
import TypedScript.Proofs.Image.Execution
import TypedScript.Proofs.Parsed.Statements
import TypedScript.Proofs.Token.Spellings
import TypedScript.Proofs.Parsed.Agreement
import TypedScript.Proofs.Bytecode.Building
