import Symbolic.Expr.Atom
import Symbolic.Reader.Sequence
import Symbolic.Reader.Span

/-! # Leading forms

What an expression can start with: an atom, an opening bracket, or a prefix operator with its
operand. -/

namespace Symbolic.Reader

open Parse

variable (table : OperatorTable) (expr : Precedence → Parse Expr)

/-! ## Brackets -/

/-- `(e)` is `e`, marked as standing in brackets of its own. -/
def group : Parse Expr := do
  let opening ← openBracket
  let e ← expr 0
  let closing ← closeBracket .rightParen
  match e with
  | .node .. => return (e.withLoc (opening.union closing)).parenthesize
  | _ => return e

/-- A node over the elements between brackets. -/
def bracketed (head : String) (closer : TokenKind) : Parse Expr := do
  let opening ← openBracket
  let items ← sequence expr closer
  let closing ← closeBracket closer
  return .make table head items (opening.union closing)

/-! ## Prefix operators -/

/-- `-x` is a negative number or a factor of minus one. -/
def minus (op : Operator) : Parse Expr := do
  let sign ← advance
  let operand ← expr op.precedence
  return .negate table op.head operand sign (sign.union operand.loc)

/-- `+x` is `x`, which then starts at the sign unless it stands in brackets. -/
def plus (op : Operator) : Parse Expr := do
  let sign ← advance
  let operand ← expr op.precedence
  if operand.isParenthesized then return operand
  else return operand.withLoc (sign.union operand.loc)

/-- `?x` asks for information on `x`, and `??x` for the long form, which takes a symbol. -/
def information (op : Operator) : Parse Expr := do
  let sign ← advance
  let first ← peek
  let operand ← expr op.precedence
  let isLong := op.kind == .information
  if isLong && operand.symbolName?.isNone then throw (.unexpectedToken first.loc first.kind)
  let flag := Expr.symbol (if isLong then "True" else "False") sign
  let option := Expr.make table "Rule" [.symbol "LongForm" sign, flag] sign
  return .make table op.head [operand, option] (sign.union operand.loc)

/-- `!!x` is a double negation. -/
def doubleNegation (op : Operator) : Parse Expr := do
  let sign ← advance
  let operand ← expr op.precedence
  let loc := sign.union operand.loc
  return .make table op.head [.make table op.head [operand] loc] loc

/-- `∫ f ⅆ x` has two operands, each with a precedence of its own. -/
def integral (op : Operator) : Parse Expr := do
  let sign ← advance
  let integrand ← expr (op.inner.getD op.precedence)
  let _ ← expect .differentialD
  let argument ← expr op.precedence
  return .make table op.head [integrand, argument] (sign.union argument.loc)

/-- Any other prefix operator builds a node over its operand. -/
def prefixedNode (op : Operator) : Parse Expr := do
  let sign ← advance
  let operand ← expr op.precedence
  return .make table op.head [operand] (sign.union operand.loc)

/-- A prefix operator with its operands. -/
def prefixed (op : Operator) : Parse Expr :=
  match op.kind with
  | .minus => minus table expr op
  | .plus => plus expr op
  | .information | .patternTest => information table expr op
  | .factorial2 => doubleNegation table expr op
  | .integral => integral table expr op
  | .span => leadingSpan table expr op
  | _ => prefixedNode table expr op

/-! ## All leading forms -/

/-- An atom, in one token. -/
def atom : Parse Expr := do
  let e ← ofResult (Expr.atom table (← peek))
  let _ ← advance
  return e

/-- A leading form. -/
def leading : Parse Expr := do
  let token ← peek
  match table.lookup? token.kind .prefixed with
  | some op => prefixed table expr op
  | none =>
    match token.kind with
    | .leftParen => group expr
    | .leftBrace => bracketed table expr "List" .rightBrace
    | .leftAssociation => bracketed table expr "Association" .rightAssociation
    | kind => if kind.isAtom then atom table else unexpected

end Symbolic.Reader
