import Symbolic.Reader.Leading
import Symbolic.Reader.Trailing

/-! # Reading expressions

An expression is a leading form and the trailing forms that extend it as far as they bind
tightly enough. Its parts are expressions themselves, which nest no deeper than there is room
for. -/

namespace Symbolic.Reader

open Parse

/-- A leading form, extended as far as possible. `expr` reads the parts. -/
def chain (table : OperatorTable) (expr : Precedence → Parse Expr) (p : Precedence) :
    Parse Expr := do
  iterate (trailing table expr p) (← leading table expr)

/-- Fails because expressions nest too deep. -/
def outOfRoom : Parse Expr := fun s =>
  .error (.recursionLimitExceeded s.current.loc) s

/-- Reads an expression whose operators bind at least as tightly as `p`. The room counts the
    expressions that may nest here, this one included. -/
def expression (table : OperatorTable) : (room : Nat) → (p : Precedence) → Parse Expr
  | 0, _ => outOfRoom
  | room + 1, p => remember p (chain table (expression table room) p)

end Symbolic.Reader
