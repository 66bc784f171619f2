import Symbolic.Bounded
import Symbolic.Character.Meaning
import Symbolic.Character.Named
import Symbolic.Error
import Symbolic.Expr.Atom
import Symbolic.Expr.Basic
import Symbolic.Expr.Comparison
import Symbolic.Expr.FullForm
import Symbolic.Expr.Json
import Symbolic.Expr.Make
import Symbolic.Expr.Schema
import Symbolic.Json
import Symbolic.Location
import Symbolic.Number.Basic
import Symbolic.Number.Literal
import Symbolic.Operator.Basic
import Symbolic.Operator.Standard
import Symbolic.Operator.Table
import Symbolic.Precedence
import Symbolic.Schema
import Symbolic.Reader.Application
import Symbolic.Reader.Arithmetic
import Symbolic.Reader.Expression
import Symbolic.Reader.Leading
import Symbolic.Reader.Parse
import Symbolic.Reader.Program
import Symbolic.Reader.Sequence
import Symbolic.Reader.Span
import Symbolic.Reader.State
import Symbolic.Reader.Statement
import Symbolic.Reader.Trailing
import Symbolic.Text.Blank
import Symbolic.Text.Digits
import Symbolic.Text.Identifier
import Symbolic.Text.Split
import Symbolic.Text.Utf8
import Symbolic.Token.Basic
import Symbolic.Token.Cursor
import Symbolic.Token.Escape
import Symbolic.Token.Kind
import Symbolic.Token.Lexeme
import Symbolic.Token.Mark
import Symbolic.Token.Name
import Symbolic.Token.Numeral
import Symbolic.Token.Placeholder
import Symbolic.Token.Quoted
import Symbolic.Token.Reference
import Symbolic.Token.Scan
import Symbolic.Token.Trivia
import Symbolic.Proofs.Reader.Follows
import Symbolic.Proofs.Reader.Rules
import Symbolic.Proofs.Reader.Memory
import Symbolic.Proofs.Reader.Room
import Symbolic.Proofs.Climbing.Chain
import Symbolic.Proofs.Arithmetic.Value
import Symbolic.Proofs.Arithmetic.Grammar
import Symbolic.Proofs.Arithmetic.Reading
import Symbolic.Proofs.Scanning.Boundary
import Symbolic.Proofs.Scanning.Numeral
import Symbolic.Proofs.Scanning.Name
import Symbolic.Proofs.Scanning.Scans
import Symbolic.Proofs.FullForm.Spelling
import Symbolic.Proofs.FullForm.Reading
import Symbolic.Proofs.Reader.Yields
import Symbolic.Proofs.Trees.Built
import Symbolic.Proofs.Trees.Atom
import Symbolic.Proofs.Trees.SideBySide
import Symbolic.Proofs.Trees.Reading
import Symbolic.Proofs.Trees.Flat
import Symbolic.Proofs.Trees.Occurrences
import Symbolic.Proofs.Trees.Constants
import Symbolic.Proofs.Scanning.PlainName
import Symbolic.Proofs.Scanning.Tokens
import Symbolic.Proofs.Scanning.Parts
import Symbolic.Proofs.FullForm.Magnitude
import Symbolic.Proofs.FullForm.Image
import Symbolic.Proofs.FullForm.Fixpoint
import Symbolic.Proofs.Reader.Paired
import Symbolic.Proofs.Reader.PairedRules
import Symbolic.Proofs.Lockstep.Balance
import Symbolic.Proofs.Lockstep.EndOfInput
import Symbolic.Proofs.Lockstep.Course
import Symbolic.Proofs.Lockstep.Symbol
import Symbolic.Proofs.Lockstep.Steps
import Symbolic.Proofs.Lockstep.Expression
import Symbolic.Proofs.Lockstep.Continuation
import Symbolic.Proofs.Lockstep.Elements
import Symbolic.Proofs.Lockstep.Parentheses
import Symbolic.Proofs.Nesting.Reading
import Symbolic.Proofs.Likeness.Data
import Symbolic.Proofs.Likeness.Parallel
import Symbolic.Proofs.Likeness.Rules
import Symbolic.Proofs.Likeness.Careful
import Symbolic.Proofs.Reader.Progress
import Symbolic.Proofs.Reader.Truthful
import Symbolic.Proofs.Likeness.Abreast
import Symbolic.Proofs.Likeness.Reading
import Symbolic.Proofs.Climbing.Threshold
import Symbolic.Proofs.Serialization.Alike
import Symbolic.Proofs.Serialization.Documented
import Symbolic.Proofs.Serialization.Plain
import Symbolic.Proofs.Serialization.Expressions
import Symbolic.Proofs.Layout.Trivia
import Symbolic.Proofs.Layout.Pieces
import Symbolic.Proofs.Layout.Stable
import Symbolic.Proofs.Layout.LaidOut
import Symbolic.Proofs.Likeness.Twins
import Symbolic.Proofs.Layout.Relaid
import Symbolic.Proofs.Locations.Scanning
import Symbolic.Proofs.Locations.Regions
import Symbolic.Proofs.Locations.Reading
import Symbolic.Proofs.Locations.Slices
import Symbolic.Proofs.Locations.Enclosing
import Symbolic.Proofs.Locations.Onward
import Symbolic.Proofs.Locations.Nesting
import Symbolic.Proofs.Reader.Rewinding
import Symbolic.Proofs.Spans.Grammar
import Symbolic.Proofs.Spans.Reading
import Symbolic.Proofs.Spans.Elements
import Symbolic.Proofs.Lockstep.Within
import Symbolic.Proofs.Comparisons.Operand
import Symbolic.Proofs.Comparisons.Chain
import Symbolic.Proofs.Juxtaposition.Seam
import Symbolic.Proofs.Juxtaposition.Rules
import Symbolic.Proofs.Juxtaposition.Reading
import Symbolic.Proofs.Nesting.Depth
import Symbolic.Proofs.Climbing.NonAssociative
import Symbolic.Proofs.Statements.Compound
import Symbolic.Proofs.Application.Bare
import Symbolic.Proofs.Application.Matches
import Symbolic.Proofs.Application.Prefix
import Symbolic.Proofs.Application.Chains
import Symbolic.Proofs.Arithmetic.Signs
import Symbolic.Proofs.FullForm.Literal
import Symbolic.Proofs.Layout.Blank
import Symbolic.Proofs.Reader.Atoms
import Symbolic.Proofs.Continued.Final
import Symbolic.Proofs.Escapes.Spelling
import Symbolic.Proofs.Trees.Grouping
import Symbolic.Proofs.Scanning.LongestLiteral
import Symbolic.Proofs.Scanning.StrayMarks
