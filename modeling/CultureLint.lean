import CultureLint.Binding.Declaration
import CultureLint.Binding.Expr
import CultureLint.Binding.Frame
import CultureLint.Binding.Literal
import CultureLint.Binding.Member
import CultureLint.Binding.Operation
import CultureLint.Binding.Operator
import CultureLint.Binding.Project
import CultureLint.Binding.Scope
import CultureLint.Binding.Stmt
import CultureLint.Cancel
import CultureLint.Cli.Check
import CultureLint.Cli.Command
import CultureLint.Cli.Directory
import CultureLint.Cli.Options
import CultureLint.Cli.Usage
import CultureLint.Cli.Word
import CultureLint.Document.Basic
import CultureLint.Document.Path
import CultureLint.Document.SourceMap
import CultureLint.Fix.Conversion
import CultureLint.Fix.Import
import CultureLint.Fix.Session
import CultureLint.Lint.Check
import CultureLint.Lint.FixAll
import CultureLint.Lint.Settings
import CultureLint.Main
import CultureLint.Parser.Cursor
import CultureLint.Parser.Document
import CultureLint.Parser.Grammar
import CultureLint.Parser.Types
import CultureLint.Proofs.Binding.Adding
import CultureLint.Proofs.Binding.AlikeDeclarations
import CultureLint.Proofs.Binding.Chain
import CultureLint.Proofs.Binding.Declarations
import CultureLint.Proofs.Binding.DottedNames
import CultureLint.Proofs.Binding.Enclosing
import CultureLint.Proofs.Binding.Expressions
import CultureLint.Proofs.Binding.Forest
import CultureLint.Proofs.Binding.IntegerTypes
import CultureLint.Proofs.Binding.Invariant
import CultureLint.Proofs.Binding.Joinless
import CultureLint.Proofs.Binding.Laying
import CultureLint.Proofs.Binding.LayingProgram
import CultureLint.Proofs.Binding.LexicalScope
import CultureLint.Proofs.Binding.LocalReferences
import CultureLint.Proofs.Binding.Locals
import CultureLint.Proofs.Binding.Members
import CultureLint.Proofs.Binding.MoreLines
import CultureLint.Proofs.Binding.Moving
import CultureLint.Proofs.Binding.MovingProgram
import CultureLint.Proofs.Binding.OperatorTypes
import CultureLint.Proofs.Binding.Operators
import CultureLint.Proofs.Binding.Order
import CultureLint.Proofs.Binding.Overload
import CultureLint.Proofs.Binding.Program
import CultureLint.Proofs.Binding.ReplacedOperand
import CultureLint.Proofs.Binding.ReplacingCall
import CultureLint.Proofs.Binding.ScopeAgreement
import CultureLint.Proofs.Binding.ScopeEvents
import CultureLint.Proofs.Binding.Statements
import CultureLint.Proofs.Binding.Steps
import CultureLint.Proofs.Binding.SymbolTable
import CultureLint.Proofs.Binding.Tally
import CultureLint.Proofs.Binding.TrackedExpressions
import CultureLint.Proofs.Binding.TrackedMembers
import CultureLint.Proofs.Binding.TrackedProgram
import CultureLint.Proofs.Binding.TrackedStatements
import CultureLint.Proofs.Binding.Tracking
import CultureLint.Proofs.Binding.Traversal
import CultureLint.Proofs.Binding.Typing
import CultureLint.Proofs.Cancel
import CultureLint.Proofs.Document.Ending
import CultureLint.Proofs.Document.Fits
import CultureLint.Proofs.Document.LineColumn
import CultureLint.Proofs.Document.Lookup
import CultureLint.Proofs.Document.MappedLines
import CultureLint.Proofs.Document.Places
import CultureLint.Proofs.Document.Reread
import CultureLint.Proofs.Fix.AddedLine
import CultureLint.Proofs.Fix.Agreement
import CultureLint.Proofs.Fix.EditedProject
import CultureLint.Proofs.Fix.FormattedOperand
import CultureLint.Proofs.Fix.ImportScope
import CultureLint.Proofs.Fix.LineInsertion
import CultureLint.Proofs.Fix.ListOrder
import CultureLint.Proofs.Fix.MendedDocument
import CultureLint.Proofs.Fix.MendedProject
import CultureLint.Proofs.Fix.Replacement
import CultureLint.Proofs.Fix.Substitution
import CultureLint.Proofs.Lint.Accounting
import CultureLint.Proofs.Lint.AllOrNothing
import CultureLint.Proofs.Lint.Settling
import CultureLint.Proofs.Parser.Abreast
import CultureLint.Proofs.Parser.AddLine
import CultureLint.Proofs.Parser.Change
import CultureLint.Proofs.Parser.Complete
import CultureLint.Proofs.Parser.Dense
import CultureLint.Proofs.Parser.Depth
import CultureLint.Proofs.Parser.Fitting
import CultureLint.Proofs.Parser.Forward
import CultureLint.Proofs.Parser.Headers
import CultureLint.Proofs.Parser.Initializer
import CultureLint.Proofs.Parser.Layout
import CultureLint.Proofs.Parser.Lines
import CultureLint.Proofs.Parser.Loops
import CultureLint.Proofs.Parser.Mirror
import CultureLint.Proofs.Parser.MirrorDecl
import CultureLint.Proofs.Parser.MirrorStmt
import CultureLint.Proofs.Parser.Moving
import CultureLint.Proofs.Parser.MovingRules
import CultureLint.Proofs.Parser.Nesting
import CultureLint.Proofs.Parser.Precedence
import CultureLint.Proofs.Parser.Run
import CultureLint.Proofs.Parser.Sound
import CultureLint.Proofs.Parser.Spelling
import CultureLint.Proofs.Parser.Steady
import CultureLint.Proofs.Parser.Wrap
import CultureLint.Proofs.Rule.Counting
import CultureLint.Proofs.Rule.Findings
import CultureLint.Proofs.Rule.FormatsOnce
import CultureLint.Proofs.Rule.Sorted
import CultureLint.Proofs.Rule.Trivia
import CultureLint.Proofs.Symbol.Growth
import CultureLint.Proofs.Symbol.Hierarchy
import CultureLint.Proofs.Symbol.Index
import CultureLint.Proofs.Text.EditScript
import CultureLint.Proofs.Text.Hunks
import CultureLint.Proofs.Text.LineDiff
import CultureLint.Proofs.Text.Lines
import CultureLint.Proofs.Text.ShownDiff
import CultureLint.Proofs.Token.Ending
import CultureLint.Proofs.Token.Holes
import CultureLint.Proofs.Token.Integers
import CultureLint.Proofs.Token.Lexemes
import CultureLint.Proofs.Token.Ordered
import CultureLint.Proofs.Token.Scan
import CultureLint.Proofs.Token.Tiling
import CultureLint.Proofs.Token.UsingLine
import CultureLint.Proofs.Token.Words
import CultureLint.Proofs.Tree.Bare
import CultureLint.Proofs.Tree.Facing
import CultureLint.Proofs.Tree.Identity
import CultureLint.Proofs.Tree.Lists
import CultureLint.Proofs.Tree.Move
import CultureLint.Proofs.Tree.Naming
import CultureLint.Proofs.Tree.Outline
import CultureLint.Proofs.Tree.Parts
import CultureLint.Proofs.Tree.Replace
import CultureLint.Rule.Basic
import CultureLint.Rule.Diagnostic
import CultureLint.Rule.Match
import CultureLint.Symbol.Basic
import CultureLint.Symbol.Compilation
import CultureLint.Symbol.Conversion
import CultureLint.Symbol.Display
import CultureLint.Symbol.Library
import CultureLint.SyntaxError
import CultureLint.Text.Alphabetic
import CultureLint.Text.Blank
import CultureLint.Text.Combining
import CultureLint.Text.Diff
import CultureLint.Text.Json
import CultureLint.Text.LineDiff
import CultureLint.Text.Numeric
import CultureLint.Text.Printable
import CultureLint.Text.Quoted
import CultureLint.Text.Ranges
import CultureLint.Text.Search
import CultureLint.Text.Slice
import CultureLint.Text.Span
import CultureLint.Text.Style
import CultureLint.Token.Basic
import CultureLint.Token.Lexer
import CultureLint.Token.Literal
import CultureLint.Tree.Decl
import CultureLint.Tree.Expr
import CultureLint.Tree.Name
import CultureLint.Tree.Walk
