import Symbolic.Error
import Symbolic.Number.Literal
import Symbolic.Token.Lexeme

/-! # Numerals

A numeral is the literal at a place. A precision mark or an exponent mark right after the
literal is a fault: it has lost what belongs to it. Behind an exponent mark only one character
is looked at, and no fault is found if that is a digit or a sign. -/

namespace Symbolic.Numeral

/-- Whether a text goes on like an exponent: with a digit or a sign. -/
def continuesExponent (cs : List Char) : Bool :=
  cs.head?.any fun c => c.isDigit || c == '+' || c == '-'

/-- Reads the numeral at a place. -/
def read (c : Cursor) : Except ScanError Lexeme :=
  match Literal.split? c.rest with
  | none => .error (.between c.offset (c.after (c.rest.take 1) []).offset .unrecognizedToken)
  | some (literal, rest) =>
    let numeral := Lexeme.verbatim .number c literal rest
    match rest with
    | '\u0060' :: _ => .error (.between c.offset (numeral.next.offset + 1) .incompleteNumber)
    | '*' :: '^' :: rest =>
      if continuesExponent rest then .ok numeral
      else .error (.between c.offset (numeral.next.offset + 2) .incompleteNumber)
    | _ => .ok numeral

end Symbolic.Numeral
