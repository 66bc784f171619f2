import Symbolic.Reader.Sequence

/-! # Trailing forms of application

Calls and parts, the operators that apply one operand to another, pure functions, derivatives
and messages. Every form is read from its operator on, after the left operand. -/

namespace Symbolic.Reader

open Parse

variable (table : OperatorTable) (expr : Precedence → Parse Expr)

/-! ## Calls and parts -/

/-- `e[[i, j]]` takes a part of `e`; read from its second bracket on. -/
def part (lhs : Expr) (op : Operator) : Parse Expr := do
  let _ ← advance
  let indices ← sequence expr .rightBracket
  let _ ← expect .rightBracket
  let closing ← closeBracket .rightBracket
  return .make table op.head (lhs :: indices) (lhs.loc.union closing)

/-- `f[x, y]` applies `f`; read from its first argument on. -/
def call (lhs : Expr) : Parse Expr := do
  let args ← sequence expr .rightBracket
  let closing ← closeBracket .rightBracket
  return (Expr.apply lhs args (lhs.loc.union closing)).parenthesize

/-- A call or a part. -/
def callOrPart (lhs : Expr) (op : Operator) : Parse Expr := do
  let _ ← openBracket
  if (← peek).kind = .leftBracket then part table expr lhs op else call expr lhs

/-! ## Operators that apply -/

/-- `f @ x` is `f[x]`. -/
def prefixApplication (lhs : Expr) (op : Operator) : Parse Expr := do
  let _ ← advance
  let rhs ← expr op.precedence
  return .apply lhs [rhs] (lhs.loc.union rhs.loc)

/-- `x // f` is `f[x]`. -/
def postfixApplication (lhs : Expr) (op : Operator) : Parse Expr := do
  let _ ← advance
  let rhs ← expr op.precedence.next
  return .apply rhs [lhs] (lhs.loc.union rhs.loc)

/-- `a ~ f ~ b` is `f[a, b]`. -/
def infixApplication (lhs : Expr) (op : Operator) : Parse Expr := do
  let _ ← advance
  let f ← expr op.precedence.next
  let _ ← expect op.kind
  let rhs ← expr op.precedence.next
  return .apply f [lhs, rhs] (lhs.loc.union rhs.loc)

/-- `f @@@ x` applies `f` at the first level of `x`. -/
def levelApplication (lhs : Expr) (op : Operator) : Parse Expr := do
  let sign ← advance
  let rhs ← expr op.precedence
  let level := Expr.make table "List" [.integer 1 sign] sign
  return .make table op.head [lhs, rhs, level] (lhs.loc.union rhs.loc)

/-- `body &` is a pure function. Any other spelling of the operator names its parameters before
    it and has the body after it. -/
def pureFunction (lhs : Expr) (op : Operator) : Parse Expr := do
  let token ← peek
  let sign ← advance
  if token.text = "&" then return .make table op.head [lhs] (lhs.loc.union sign)
  else
    let body ← expr op.precedence
    return .make table op.head [lhs, body] (lhs.loc.union body.loc)

/-! ## Derivatives and messages -/

/-- Counts one more mark of a derivative. The last mark stands at the location. -/
def derivativeTurn (op : Operator) (marks : Nat × Location) :
    Parse (Turn (Nat × Location) (Nat × Location)) := do
  if (← peek).kind = op.kind then return .again (marks.1 + 1, ← advance) else return .done marks

/-- `f''` is the second derivative of `f`. -/
def derivative (lhs : Expr) (op : Operator) : Parse Expr := do
  let first := (← peek).loc
  let (order, last) ← iterate (derivativeTurn op) (0, first)
  let loc := first.union last
  let head := Expr.make table op.head [.integer order loc] loc
  return .apply head [lhs] (lhs.loc.union last)

/-- Adds one more tag, a symbol or a string, to a message, which so far takes up the
    location. -/
def messageTurn (op : Operator) (message : List Expr × Location) :
    Parse (Turn (List Expr × Location) (List Expr × Location)) := do
  if (← peek).kind = op.kind then
    let _ ← advance
    let token ← peek
    if token.kind = .symbol ∨ token.kind = .string then
      let loc ← advance
      return .again (message.1 ++ [.string token.text token.loc], message.2.union loc)
    else unexpected
  else return .done message

/-- `a::b::c` names a message of `a` by tags. -/
def messageName (lhs : Expr) (op : Operator) : Parse Expr := do
  let (children, loc) ← iterate (messageTurn op) ([lhs], lhs.loc)
  return .make table op.head children loc

end Symbolic.Reader
