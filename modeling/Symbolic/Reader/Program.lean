import Symbolic.Operator.Standard
import Symbolic.Reader.Expression
import Symbolic.Token.Scan

/-! # Reading whole inputs

An input is a sequence of expressions, which are multiplied if there is more than one. An
empty input is no expression. -/

namespace Symbolic

/-- What a reader goes by: the operators, and how deep expressions may nest. -/
structure Settings where
  table : OperatorTable := .standard
  limit : Nat := 128

namespace Reader

open Parse

/-- Adds the next expression, or ends at the end of the input. `expr` reads the expressions. -/
def programTurn (expr : Precedence → Parse Expr) (exprs : List Expr) :
    Parse (Turn (List Expr) (Option Expr)) := do
  if (← peek).kind = .endOfInput then return .done (Expr.juxtaposed? exprs)
  else return .again (exprs ++ [← expr 0])

/-- Reads all that remains. -/
def program (settings : Settings) : Parse (Option Expr) :=
  iterate (programTurn (expression settings.table settings.limit)) []

/-- Reads all that remains, and leaves the reader where it ends up. -/
def run (settings : Settings) (s : State) : Except SyntaxError (Option Expr) × State :=
  match program settings s with
  | .ok e s' => (.ok e, s')
  | .error e s' => (.error e, s')

end Reader

/-- Reads a sequence of tokens as an expression, if it holds any. -/
def readTokens (settings : Settings) (tokens : List Token) : Except SyntaxError (Option Expr) :=
  (Reader.run settings (.ofTokens tokens)).1

/-- Reads a text as an expression, if it holds any. -/
def read (settings : Settings) (text : String) : Except ReadError (Option Expr) :=
  match tokenize text with
  | .error e => .error (.scanning e)
  | .ok tokens =>
    match readTokens settings tokens with
    | .error e => .error (.parsing e)
    | .ok e => .ok e

end Symbolic
