import Symbolic.Error
import Symbolic.Precedence
import Symbolic.Token.Basic

/-! # The state of a reader

A reader goes over tokens up to the first end of the input, and knows which brackets are open.
It also remembers which readings have failed, so that none of them is tried twice. -/

namespace Symbolic.Reader

/-- What decides how reading an expression ends: the tokens that remain, how tightly its
    operators have to bind, and the brackets around it. -/
structure Occasion where
  remaining : Nat
  precedence : Precedence
  depth : Nat
  innermost : Option Location
deriving DecidableEq, Repr

/-- Where a reader is, and what it has learnt. -/
structure State where
  /-- The tokens before the end of the input that are still to be read. -/
  rest : List Token
  /-- Where the end of the input is. -/
  stop : Location
  /-- Where the open brackets are, the innermost first. -/
  brackets : List Location
  /-- The readings that have failed, and how. -/
  failures : List (Occasion × SyntaxError)
deriving Repr

namespace State

/-- A reader before the first of the tokens. What follows the end of the input is ignored. An
    end that is missing is where the last token ends. -/
def ofTokens (tokens : List Token) : State where
  rest := tokens.takeWhile (·.kind != .endOfInput)
  stop :=
    match tokens.find? (·.kind == .endOfInput) with
    | some token => token.loc
    | none => tokens.getLast?.elim .zero fun token => .empty token.loc.stop
  brackets := []
  failures := []

/-- The token to be read next. After the last one this is the end of the input, for ever. -/
def current (s : State) : Token :=
  s.rest.head?.getD (.endOfInput s.stop)

/-- The occasion of reading an expression here. -/
def occasion (s : State) (precedence : Precedence) : Occasion :=
  ⟨s.rest.length, precedence, s.brackets.length, s.brackets.head?⟩

/-! ## Errors

At the end of the input it is the innermost open bracket that is at fault. -/

/-- The error `e` about the current token, unless the input ends within a bracket. -/
def faultAt (s : State) (e : SyntaxError) : SyntaxError :=
  if s.current.kind = .endOfInput then s.brackets.head?.elim e .unclosedBracket else e

/-- The error that the current token cannot stand here. -/
def unexpected (s : State) : SyntaxError :=
  s.faultAt (.unexpectedToken s.current.loc s.current.kind)

/-- The error that a delimiter is missing here. -/
def missing (s : State) (expected : TokenKind) : SyntaxError :=
  s.faultAt (.unmatchedDelimiter s.current.loc expected)

/-! ## Going back -/

/-- A place to which a reader can go back. -/
structure Mark where
  rest : List Token
  depth : Nat

/-- The place where the reader is. -/
def mark (s : State) : Mark :=
  ⟨s.rest, s.brackets.length⟩

/-- Goes back to a place. Brackets opened since then are forgotten, failures are not. -/
def rewind (s : State) (m : Mark) : State :=
  { s with rest := m.rest, brackets := s.brackets.drop (s.brackets.length - m.depth) }

end State

end Symbolic.Reader
