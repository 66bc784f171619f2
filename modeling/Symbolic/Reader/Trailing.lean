import Symbolic.Reader.Application
import Symbolic.Reader.Arithmetic
import Symbolic.Reader.Span
import Symbolic.Reader.Statement

/-! # Trailing forms

After an operand, the next token either extends it to a larger expression or ends it. An
operator extends the operand if it binds at least as tightly as the reader asks for. -/

namespace Symbolic.Reader

open Parse

variable (table : OperatorTable) (expr : Precedence → Parse Expr)

/-- The form of an operator that binds tightly enough, other than a colon. -/
def extended (lhs : Expr) (op : Operator) : TokenKind → Parse (Turn Expr Expr)
  | .messageName => .again <$> messageName table lhs op
  | .leftBracket => .again <$> callOrPart table expr lhs op
  | .derivative => .again <$> derivative table lhs op
  | .minus => .again <$> difference table expr lhs op
  | .divide => .again <$> quotient table expr lhs op
  | .equal | .unequal | .less | .greater | .lessEqual | .greaterEqual =>
    .again <$> comparison table expr lhs op
  | .prefixMark => .again <$> prefixApplication expr lhs op
  | .postfixMark => .again <$> postfixApplication expr lhs op
  | .infixMark => .again <$> infixApplication expr lhs op
  | .applyList => .again <$> levelApplication table expr lhs op
  | .function => .again <$> pureFunction table expr lhs op
  | .semicolon => .again <$> compound table expr lhs op
  | .span => trailingSpan table expr lhs op
  | .tagSet => .again <$> tagSet table expr lhs op
  | _ =>
    match op.fixity with
    | .infixed => .again <$> infixedNode table expr lhs op
    | .postfixed => .again <$> postfixedNode table lhs op
    | .ternary | .prefixed => return .done lhs

/-- Extends an operand by the next token, or ends it. -/
def trailing (p : Precedence) (lhs : Expr) : Parse (Turn Expr Expr) := do
  let token ← peek
  match table.trailing? token.kind with
  | none => juxtaposition table expr lhs p
  | some op =>
    if token.kind = .rawColon then colon table expr lhs op p
    else if op.precedence < p then return .done lhs
    else extended table expr lhs op token.kind

end Symbolic.Reader
