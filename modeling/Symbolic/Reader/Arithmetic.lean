import Symbolic.Expr.Comparison
import Symbolic.Reader.Parse

/-! # Trailing forms of arithmetic

Operators between operands or after one: those that just build a node, and the arithmetic and
comparisons that say what the node is made of. Every form is read from its operator on, after
the left operand. -/

namespace Symbolic.Reader

open Parse

variable (table : OperatorTable) (expr : Precedence → Parse Expr)

/-- Whether the operand is an open chain of an operator that does not chain. -/
def isForbiddenChain (lhs : Expr) (op : Operator) : Bool :=
  op.associativity == .nonAssociative && lhs.isOpenNode op.head

/-- An infix operator builds a node over its two operands. -/
def infixedNode (lhs : Expr) (op : Operator) : Parse Expr := do
  if isForbiddenChain lhs op then throw (.nonAssociativeChain (← peek).loc op.kind)
  let _ ← advance
  let rhs ← expr op.rightPrecedence
  return .make table op.head [lhs, rhs] (lhs.loc.union rhs.loc)

/-- A postfix operator builds a node over its operand. -/
def postfixedNode (lhs : Expr) (op : Operator) : Parse Expr := do
  let sign ← advance
  return .make table op.head [lhs] (lhs.loc.union sign)

/-- `a - b` adds the negative of `b`. -/
def difference (lhs : Expr) (op : Operator) : Parse Expr := do
  let sign ← advance
  let rhs ← expr op.precedence.next
  let loc := sign.union rhs.loc
  return .make table op.head [lhs, .negate table "Times" rhs sign loc] (lhs.loc.union loc)

/-- `a / b` multiplies by the reciprocal of `b`. -/
def quotient (lhs : Expr) (op : Operator) : Parse Expr := do
  let sign ← advance
  let rhs ← expr op.precedence.next
  let reciprocal := Expr.make table "Power" [rhs, .integer (-1) sign] rhs.loc
  return .make table op.head [lhs, reciprocal] (lhs.loc.union rhs.loc)

/-- A comparison extends a chain of comparisons. -/
def comparison (lhs : Expr) (op : Operator) : Parse Expr := do
  let sign ← advance
  let rhs ← expr op.precedence.next
  return .compare table lhs op.head sign rhs (lhs.loc.union rhs.loc)

/-- Side by side, expressions are multiplied, where a product binds tightly enough and the next
    token does not end the operand. -/
def juxtaposition (lhs : Expr) (p : Precedence) : Parse (Turn Expr Expr) := do
  let token ← peek
  match table.lookup? .times .infixed with
  | none => return .done lhs
  | some times =>
    if token.kind.endsOperand || times.precedence < p then return .done lhs
    else
      let rhs ← expr times.precedence.next
      return .again (.make table times.head [lhs, rhs] (lhs.loc.union rhs.loc))

end Symbolic.Reader
