import Symbolic.Expr.Make

/-! # Chains of comparisons

Comparisons by one operator chain into one node. A chain of different comparisons becomes an
`Inequality`, whose children are operands with the names of the comparisons between them. -/

namespace Symbolic.Expr

/-- The heads that chains of different comparisons mix. -/
def isComparison (head : String) : Bool :=
  ["Equal", "Unequal", "Less", "Greater", "LessEqual", "GreaterEqual"].contains head

/-- Extends a comparison by one more operand. `op` is the head of the comparison operator at
    the location `sign`. -/
def compare (table : OperatorTable) (lhs : Expr) (op : String) (sign : Location) (rhs : Expr)
    (loc : Location) : Expr :=
  match lhs with
  | .node (.symbol head headLoc) children false _ =>
    if head = "Inequality" then
      .node (.symbol head headLoc) (children ++ [.symbol op sign, rhs]) false loc
    else if head ≠ op ∧ isComparison head then
      make table "Inequality"
        (children.intersperse (.symbol head headLoc) ++ [.symbol op sign, rhs]) loc
    else make table op [lhs, rhs] loc
  | _ => make table op [lhs, rhs] loc

end Symbolic.Expr
