import ClassCompiler.Code.Instruction
import ClassCompiler.Code.Printer
import ClassCompiler.Code.Type
import ClassCompiler.Code.Unit
import ClassCompiler.CommandLine.Arguments
import ClassCompiler.CommandLine.Help
import ClassCompiler.CommandLine.Run
import ClassCompiler.Compilation
import ClassCompiler.FileError
import ClassCompiler.Json.Basic
import ClassCompiler.Json.Reader
import ClassCompiler.Json.Writer
import ClassCompiler.Lowering.Class
import ClassCompiler.Lowering.Expr
import ClassCompiler.Lowering.Frame
import ClassCompiler.Lowering.Value
import ClassCompiler.Main
import ClassCompiler.Optimization.Edit
import ClassCompiler.Optimization.Folding
import ClassCompiler.Optimization.Propagation
import ClassCompiler.Optimization.Rounds
import ClassCompiler.Options
import ClassCompiler.Proofs.Collections
import ClassCompiler.Proofs.Json.Reading
import ClassCompiler.Proofs.Lowering.Acceptance
import ClassCompiler.Proofs.Lowering.Arguments
import ClassCompiler.Proofs.Lowering.Computation
import ClassCompiler.Proofs.Lowering.Confinement
import ClassCompiler.Proofs.Lowering.Control
import ClassCompiler.Proofs.Lowering.Creation
import ClassCompiler.Proofs.Lowering.Derivation
import ClassCompiler.Proofs.Lowering.Elements
import ClassCompiler.Proofs.Lowering.ExprCorrect
import ClassCompiler.Proofs.Lowering.FieldEntries
import ClassCompiler.Proofs.Lowering.Flow
import ClassCompiler.Proofs.Lowering.Frame
import ClassCompiler.Proofs.Lowering.Gathering
import ClassCompiler.Proofs.Lowering.Lowerable
import ClassCompiler.Proofs.Lowering.Method
import ClassCompiler.Proofs.Lowering.Naming
import ClassCompiler.Proofs.Lowering.Operations
import ClassCompiler.Proofs.Lowering.Packing
import ClassCompiler.Proofs.Lowering.Places
import ClassCompiler.Proofs.Lowering.Preservation
import ClassCompiler.Proofs.Lowering.Progress
import ClassCompiler.Proofs.Lowering.Readiness
import ClassCompiler.Proofs.Lowering.Scoping
import ClassCompiler.Proofs.Lowering.Simulation
import ClassCompiler.Proofs.Lowering.StaticContext
import ClassCompiler.Proofs.Lowering.StmtCorrect
import ClassCompiler.Proofs.Lowering.StmtDerivation
import ClassCompiler.Proofs.Lowering.Temporaries
import ClassCompiler.Proofs.Lowering.ThreeAddress
import ClassCompiler.Proofs.Lowering.Variables
import ClassCompiler.Proofs.Lowering.Writes
import ClassCompiler.Proofs.Optimization.Acceptance
import ClassCompiler.Proofs.Optimization.Counting
import ClassCompiler.Proofs.Optimization.Edit
import ClassCompiler.Proofs.Optimization.Effects
import ClassCompiler.Proofs.Optimization.Exchange
import ClassCompiler.Proofs.Optimization.Expressions
import ClassCompiler.Proofs.Optimization.Facts
import ClassCompiler.Proofs.Optimization.Folding
import ClassCompiler.Proofs.Optimization.Idempotence
import ClassCompiler.Proofs.Optimization.Methods
import ClassCompiler.Proofs.Optimization.Propagation
import ClassCompiler.Proofs.Optimization.Replacement
import ClassCompiler.Proofs.Optimization.Retyping
import ClassCompiler.Proofs.Optimization.Rewriting
import ClassCompiler.Proofs.Optimization.Rounds
import ClassCompiler.Proofs.Optimization.Statements
import ClassCompiler.Proofs.Optimization.Survival
import ClassCompiler.Proofs.Optimization.Swap
import ClassCompiler.Proofs.Optimization.Traversal
import ClassCompiler.Proofs.Optimization.Typing
import ClassCompiler.Proofs.Optimization.Written
import ClassCompiler.Proofs.Registers.Colouring
import ClassCompiler.Proofs.Registers.Core
import ClassCompiler.Proofs.Registers.Frame
import ClassCompiler.Proofs.Registers.Interference
import ClassCompiler.Proofs.Registers.Liveness
import ClassCompiler.Proofs.Registers.Paths
import ClassCompiler.Proofs.Registers.Preservation
import ClassCompiler.Proofs.Registers.Requirement
import ClassCompiler.Proofs.Registers.Search
import ClassCompiler.Proofs.Review.Added
import ClassCompiler.Proofs.Review.Composition
import ClassCompiler.Proofs.Review.DeclarationOrder
import ClassCompiler.Proofs.Review.Declarations
import ClassCompiler.Proofs.Review.DuplicateFree
import ClassCompiler.Proofs.Review.Duplicates
import ClassCompiler.Proofs.Review.EarlyUseReports
import ClassCompiler.Proofs.Review.EarlyUses
import ClassCompiler.Proofs.Review.Findings
import ClassCompiler.Proofs.Review.Invariance
import ClassCompiler.Proofs.Review.Passing
import ClassCompiler.Proofs.Review.Visits
import ClassCompiler.Proofs.Runs
import ClassCompiler.Proofs.Semantics.Agreement
import ClassCompiler.Proofs.Semantics.Execution
import ClassCompiler.Proofs.Semantics.Machine
import ClassCompiler.Proofs.Semantics.Memory
import ClassCompiler.Proofs.Semantics.Operands
import ClassCompiler.Proofs.Semantics.Renaming
import ClassCompiler.Proofs.Semantics.Source
import ClassCompiler.Proofs.Symbols.Signatures
import ClassCompiler.Proofs.Syntax.Compound
import ClassCompiler.Proofs.Syntax.Context
import ClassCompiler.Proofs.Syntax.Copy
import ClassCompiler.Proofs.Syntax.Loading
import ClassCompiler.Proofs.Syntax.Numbering
import ClassCompiler.Proofs.Syntax.Postorder
import ClassCompiler.Proofs.Syntax.RoundTrip
import ClassCompiler.Proofs.Syntax.Term
import ClassCompiler.Proofs.Syntax.Traversals
import ClassCompiler.Proofs.Syntax.Unfolding
import ClassCompiler.Proofs.Syntax.Walk
import ClassCompiler.Proofs.Syntax.WellFormed
import ClassCompiler.Proofs.Text.Numeral
import ClassCompiler.Proofs.Typing.Accepted
import ClassCompiler.Proofs.Typing.Agreement
import ClassCompiler.Proofs.Typing.DeclaredTypes
import ClassCompiler.Proofs.Typing.Initializers
import ClassCompiler.Proofs.Typing.OwnCalls
import ClassCompiler.Proofs.Typing.Receivers
import ClassCompiler.Proofs.Typing.Rules
import ClassCompiler.Registers.Allocation
import ClassCompiler.Registers.Interference
import ClassCompiler.Registers.Liveness
import ClassCompiler.Report
import ClassCompiler.Review.Check
import ClassCompiler.Review.Declarations
import ClassCompiler.Review.Finding
import ClassCompiler.Review.Names
import ClassCompiler.Review.Operands
import ClassCompiler.Review.Pipeline
import ClassCompiler.Review.Values
import ClassCompiler.Symbols.Basic
import ClassCompiler.Symbols.Build
import ClassCompiler.Symbols.Printer
import ClassCompiler.Syntax.Document
import ClassCompiler.Syntax.Draft
import ClassCompiler.Syntax.Kind
import ClassCompiler.Syntax.Label
import ClassCompiler.Syntax.Operator
import ClassCompiler.Syntax.Printer
import ClassCompiler.Syntax.Term
import ClassCompiler.Syntax.Term.Lemmas
import ClassCompiler.Syntax.Tree
import ClassCompiler.Syntax.Tree.Lemmas
import ClassCompiler.Syntax.TypeName
import ClassCompiler.Syntax.Walk
import ClassCompiler.Text.Characters
import ClassCompiler.Text.NameMap
import ClassCompiler.Text.NameMap.Lemmas
import ClassCompiler.Text.NameSet
import ClassCompiler.Text.Numeral
import ClassCompiler.Typing.Basic
