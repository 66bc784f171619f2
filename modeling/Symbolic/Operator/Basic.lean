import Symbolic.Precedence
import Symbolic.Token.Kind

/-! # Operators

An operator gives meaning to a kind of token in one position: before its operand, between two
operands, after its operand, or with a second delimiter. Its head is the head of the node that
it builds. -/

namespace Symbolic

/-- Where an operator stands. -/
inductive Fixity where
  | prefixed
  | infixed
  | postfixed
  /-- Between operands and with a second delimiter, as in `a ~ f ~ b`. -/
  | ternary
deriving DecidableEq, Repr, Inhabited

namespace Fixity

/-- The name of a fixity. -/
def name : Fixity → String
  | .prefixed => "Prefix"
  | .infixed => "Infix"
  | .postfixed => "Postfix"
  | .ternary => "Ternary"

/-- The fixity of a given name. -/
def ofName? (s : String) : Option Fixity :=
  [prefixed, infixed, postfixed, ternary].find? (·.name == s)

end Fixity

/-- How an operator combines with itself. -/
inductive Associativity where
  | left
  | right
  /-- A chain becomes one node with many children. -/
  | flat
  /-- A chain needs parentheses. -/
  | nonAssociative
deriving DecidableEq, Repr, Inhabited

namespace Associativity

/-- The name of an associativity. -/
def name : Associativity → String
  | .left => "Left"
  | .right => "Right"
  | .flat => "Flat"
  | .nonAssociative => "NonAssociative"

/-- The associativity of a given name. -/
def ofName? (s : String) : Option Associativity :=
  [left, right, flat, nonAssociative].find? (·.name == s)

end Associativity

/-- What a kind of token means as an operator in one position. -/
structure Operator where
  kind : TokenKind
  /-- The head of the node that the operator builds. -/
  head : String
  precedence : Precedence
  fixity : Fixity
  associativity : Associativity
  /-- How tightly the first operand of a prefix form binds, where its operands bind
      differently. The precedence is then that of the last operand. -/
  inner : Option Precedence
deriving DecidableEq, Repr, Inhabited

namespace Operator

/-- An operator before its operand. -/
def prefixed (kind : TokenKind) (head : String) (precedence : Precedence) : Operator :=
  ⟨kind, head, precedence, .prefixed, .right, none⟩

/-- An operator after its operand. -/
def postfixed (kind : TokenKind) (head : String) (precedence : Precedence) : Operator :=
  ⟨kind, head, precedence, .postfixed, .left, none⟩

/-- An operator between its operands. -/
def infixed (kind : TokenKind) (head : String) (precedence : Precedence)
    (associativity : Associativity) : Operator :=
  ⟨kind, head, precedence, .infixed, associativity, none⟩

/-- An operator with a second delimiter. -/
def ternary (kind : TokenKind) (head : String) (precedence : Precedence) : Operator :=
  ⟨kind, head, precedence, .ternary, .left, none⟩

/-- The operator of a fixity, with the associativity that is usual there. -/
def ofFixity (fixity : Fixity) (kind : TokenKind) (head : String) (precedence : Precedence) :
    Operator :=
  match fixity with
  | .prefixed => prefixed kind head precedence
  | .infixed => infixed kind head precedence .left
  | .postfixed => postfixed kind head precedence
  | .ternary => ternary kind head precedence

/-- What a table knows an operator by. -/
def key (op : Operator) : TokenKind × Fixity :=
  (op.kind, op.fixity)

/-- How tightly the right operand of an infix operator binds. Only a right-associative
    operator takes its own kind there. -/
def rightPrecedence (op : Operator) : Precedence :=
  match op.associativity with
  | .right => op.precedence
  | _ => op.precedence.next

theorem precedence_le_rightPrecedence (op : Operator) : op.precedence ≤ op.rightPrecedence := by
  unfold rightPrecedence
  split
  · exact UInt16.le_refl _
  · exact Precedence.le_next _

end Operator

end Symbolic
