import Symbolic.Reader.Program

/-!
# A reader without memory

The forgetful reader goes by the same rules as the reader, but keeps no record of failures:
whatever it comes to read, it reads from its tokens.
-/

namespace Symbolic.Reader.Forgetful

open Parse

/-- Reads an expression whose operators bind at least as tightly as `p`, with no regard to
    earlier failures. -/
def expression (table : OperatorTable) : (room : Nat) → (p : Precedence) → Parse Expr
  | 0, _ => outOfRoom
  | room + 1, p => chain table (expression table room) p

/-- Reads all that remains. -/
def program (settings : Settings) : Parse (Option Expr) :=
  iterate (programTurn (expression settings.table settings.limit)) []

/-- Reads a sequence of tokens as an expression, if it holds any. -/
def readTokens (settings : Settings) (tokens : List Token) : Except SyntaxError (Option Expr) :=
  match program settings (.ofTokens tokens) with
  | .ok e _ => .ok e
  | .error e _ => .error e

end Symbolic.Reader.Forgetful
