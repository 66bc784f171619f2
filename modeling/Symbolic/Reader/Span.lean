import Symbolic.Expr.Make
import Symbolic.Reader.Parse

/-! # Spans

A span `a ;; b ;; c` has a start, an end and a step, and each of them may be left out. Without
a start it begins at one, without an end it takes in all, and without a step there is none. -/

namespace Symbolic.Reader

open Parse

variable (table : OperatorTable) (expr : Precedence → Parse Expr)

/-- Reads the end of a span after its first mark, which stands at `sign`. -/
def spanEnd (op : Operator) (sign : Location) : Parse Expr := do
  if (← peek).kind = .span then return .symbol "All" sign
  else return (← attempt (expr op.precedence.next)).getD (.symbol "All" sign)

/-- Reads a second mark and the step after it, if both are there. -/
def spanStep? (op : Operator) : Parse (Option Expr) := do
  if (← peek).kind = .span then
    attempt do
      let _ ← advance
      expr op.precedence.next
  else return none

/-- Reads a span from its first mark on, after its start. -/
def spanFrom (start : Expr) (op : Operator) : Parse Expr := do
  let sign ← advance
  if ← atFinalEnd then
    return .make table op.head [start, .symbol "All" sign] (start.loc.union sign)
  let stop ← spanEnd expr op sign
  match ← spanStep? expr op with
  | some step => return .make table op.head [start, stop, step] (start.loc.union step.loc)
  | none => return .make table op.head [start, stop] ((start.loc.union stop.loc).union sign)

/-- Reads a span without a start. -/
def leadingSpan (op : Operator) : Parse Expr := do
  let token ← peek
  spanFrom table expr (.integer 1 (.empty token.loc.start)) op

/-- Extends an operand to a span that starts with it, unless it is an open span itself. -/
def trailingSpan (lhs : Expr) (op : Operator) : Parse (Turn Expr Expr) := do
  if lhs.isOpenNode op.head then return .done lhs
  else return .again (← spanFrom table expr lhs op)

end Symbolic.Reader
