import Symbolic.Expr.Make
import Symbolic.Reader.Parse

/-! # Trailing forms of patterns and statements

Names and default values of patterns, sequences of statements, and assignments that belong to
a symbol. Every form is read from its operator on, after the left operand. -/

namespace Symbolic.Reader

open Parse

variable (table : OperatorTable) (expr : Precedence → Parse Expr)

/-! ## Colons -/

/-- The heads of patterns that can have a default value. -/
def isPatternHead (head : String) : Bool :=
  ["Blank", "BlankSequence", "BlankNullSequence", "Pattern", "Optional"].contains head

/-- The head and the precedence of a colon after an operand: a symbol names a pattern, and a
    pattern gets a default value. -/
def colonMeaning? (lhs : Expr) (op : Operator) : Option (String × Precedence) :=
  if lhs.symbolName?.isSome then some (op.head, op.precedence)
  else if lhs.headName?.any isPatternHead then
    some ("Optional", (table.namedPrecedence? "Optional").getD op.precedence)
  else none

/-- `x:p` names a pattern, and `p:v` gives a default value. A colon right after the pattern of
    another colon is left to that one. -/
def colon (lhs : Expr) (op : Operator) (p : Precedence) : Parse (Turn Expr Expr) := do
  match colonMeaning? table lhs op with
  | none => return .done lhs
  | some (head, precedence) =>
    if p = op.precedence.next then return .done lhs
    else
      let _ ← advance
      let rhs ← expr precedence.next
      return .again (.make table head [lhs, rhs] (lhs.loc.union rhs.loc))

/-! ## Statements -/

/-- `a; b` is a sequence of statements. A statement that is left out is `Null`. -/
def compound (lhs : Expr) (op : Operator) : Parse Expr := do
  let sign ← advance
  let rhs? ← if ← atFinalEnd then pure none else attempt (expr op.precedence.next)
  let rhs := rhs?.getD (.symbol "Null" sign)
  return .make table op.head [lhs, rhs] (lhs.loc.union rhs.loc)

/-- The head of an assignment that belongs to a symbol, by its second operator. -/
def tagHead? : TokenKind → Option String
  | .set => some "TagSet"
  | .setDelayed => some "TagSetDelayed"
  | .unset => some "TagUnset"
  | _ => none

/-- `f /: p = v`, `f /: p := v` and `f /: p =.` assign to a pattern on behalf of `f`. -/
def tagSet (lhs : Expr) (op : Operator) : Parse Expr := do
  let _ ← advance
  let pattern ← expr op.precedence.next
  let token ← peek
  match tagHead? token.kind with
  | none => missing .set
  | some head =>
    let sign ← advance
    if token.kind = .unset then return .make table head [lhs, pattern] (lhs.loc.union sign)
    else
      let value ← expr op.precedence.next
      return .make table head [lhs, pattern, value] (lhs.loc.union value.loc)

end Symbolic.Reader
