import Symbolic.Expr.Make
import Symbolic.Reader.Parse

/-! # Elements between commas

The elements of a list or of a call are separated by commas. An element that is left out is
`Null`, except that nothing at all between the brackets is no element. Expressions side by side
within one element are multiplied. All steps here take a step that reads an expression at a
given precedence. -/

namespace Symbolic.Reader

open Parse

variable (expr : Precedence → Parse Expr)

/-- Adds an expression to those side by side in an element, or ends the element before a comma
    or the closing bracket. -/
def elementTurn (closer : TokenKind) (factors : List Expr) :
    Parse (Turn (List Expr) (List Expr)) := do
  let token ← peek
  if token.kind = .comma ∨ token.kind = closer then
    return .done (Expr.juxtaposed? factors).toList
  else if token.kind = .endOfInput then unexpected
  else if token.kind.endsOperand then throw (.unmatchedDelimiter token.loc closer)
  else return .again (factors ++ [← expr 0])

/-- Reads an element that is not left out. -/
def element (closer : TokenKind) : Parse (List Expr) := do
  iterate (elementTurn expr closer) [← expr 0]

/-- Adds an element, or ends the elements before the closing bracket. -/
def sequenceTurn (closer : TokenKind) (items : List Expr) :
    Parse (Turn (List Expr) (List Expr)) := do
  let token ← peek
  if token.kind = .comma then
    let loc ← advance
    return .again (items ++ [.symbol "Null" loc])
  else if token.kind = closer then
    return .done (if items.isEmpty then [] else items ++ [.symbol "Null" token.loc])
  else if token.kind = .endOfInput then unexpected
  else
    let items := items ++ (← element expr closer)
    if (← peek).kind = .comma then
      let _ ← advance
      return .again items
    else return .done items

/-- Reads elements up to the closing bracket, which is left to the caller. -/
def sequence (closer : TokenKind) : Parse (List Expr) :=
  iterate (sequenceTurn expr closer) []

end Symbolic.Reader
