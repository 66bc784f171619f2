import Symbolic.Expr.Basic
import Symbolic.Operator.Table

/-! # Making nodes

Nodes are made in normal form: a node with a flat head takes up the children of those of its
arguments that are open nodes with the same head. Arguments are in normal form themselves, so
one level is enough. -/

namespace Symbolic.Expr

/-- What an argument contributes to a node with a flat head. -/
def contribution (head : String) (e : Expr) : List Expr :=
  if e.isOpenNode head then e.children else [e]

/-- The children that a node with the named head gets from its arguments. -/
def arguments (table : OperatorTable) (head : String) (args : List Expr) : List Expr :=
  if table.isFlat head then args.flatMap (contribution head) else args

/-- The node with the named head over the arguments. -/
def make (table : OperatorTable) (head : String) (args : List Expr) (loc : Location) : Expr :=
  .node (.symbol head loc) (arguments table head args) false loc

/-- The application of any head to arguments, which are kept as they are. -/
def apply (head : Expr) (args : List Expr) (loc : Location) : Expr :=
  .node head args false loc

/-- An integer. -/
def integer (n : Int) (loc : Location) : Expr :=
  .number (.ofInt n) loc

/-- The product of expressions that stand side by side: nothing for none, a single one itself,
    and else one node over all of them. -/
def juxtaposed? : List Expr → Option Expr
  | [] => none
  | [e] => some e
  | e :: es =>
    let loc := e.loc.union ((es.getLast?.getD e).loc)
    some (apply (.symbol "Times" loc) (e :: es) loc)

/-- The negative of an operand: a number that has no sign gets one, anything else a factor
    of minus one. The sign stands at `sign`. -/
def negate (table : OperatorTable) (head : String) (operand : Expr) (sign loc : Location) : Expr :=
  match operand with
  | .number value _ =>
    if value.negative then make table head [integer (-1) sign, operand] loc
    else .number { value with negative := true } loc
  | _ => make table head [integer (-1) sign, operand] loc

end Symbolic.Expr
