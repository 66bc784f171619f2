import Symbolic.Bounded
import Symbolic.Text.Digits
import Symbolic.Text.Split

/-! # Numbers

A number is kept as it is written: a sign, a base, digits with a point, a precision mark and
an exponent. What the digits amount to is left to whoever evaluates the number. -/

namespace Symbolic

/-- A number as it is written. -/
structure Number where
  /-- The digits in the base, possibly with a point. -/
  digits : String
  negative : Bool
  base : UInt32
  /-- What follows the first backquote. A second backquote is part of it. -/
  precision : Option String
  exponent : Int64
deriving DecidableEq, Repr, Inhabited

namespace Number

/-- An integer in base ten. -/
def ofInt (n : Int) : Number :=
  ⟨String.ofList (Text.naturalText n.natAbs), decide (n < 0), 10, none, 0⟩

/-! ## Reading a literal -/

/-- Whether a text holds nothing but points and digits below the base, and is not empty. -/
def isMantissa (base : Nat) (cs : List Char) : Bool :=
  !cs.isEmpty && cs.all fun c => c == '.' || (Text.digitValue? c).any (· < base)

/-- An exponent, if it fits in 64 bits. -/
def exponent? (cs : List Char) : Option Int64 :=
  (Text.integer? cs).bind Bounded.long?

/-- Takes a literal apart into base, exponent, precision and digits. The base is between 2
    and 36, the digits are below it, and the exponent fits in 64 bits. -/
def ofCharacters? (cs : List Char) : Option Number := do
  let (base, rest) ←
    match Text.splitOnce? ['^', '^'] cs with
    | some (base, rest) => (Text.natural? base).map (·, rest)
    | none => some (10, cs)
  guard (2 ≤ base ∧ base ≤ 36)
  let (rest, exponent) := Text.cut ['*', '^'] rest
  let exponent ← exponent.elim (some 0) exponent?
  let (digits, precision) := Text.cut ['\u0060'] rest
  guard (isMantissa base digits)
  some ⟨.ofList digits, false, .ofNat base, precision.map .ofList, exponent⟩

/-- The number that a literal stands for. -/
def ofLiteral? (literal : String) : Option Number :=
  ofCharacters? literal.toList

/-! ## Writing -/

/-- The characters of a number: sign, base unless it is ten, digits, precision, and the
    exponent unless it is zero. -/
def characters (n : Number) : List Char :=
  (if n.negative then ['-'] else [])
    ++ (if n.base = 10 then [] else Text.naturalText n.base.toNat ++ ['^', '^'])
    ++ n.digits.toList
    ++ (match n.precision with
      | none => []
      | some precision => '\u0060' :: precision.toList)
    ++ (if n.exponent = 0 then [] else '*' :: '^' :: Text.integerText n.exponent.toInt)

/-- The text of a number. -/
def text (n : Number) : String :=
  .ofList n.characters

end Number

end Symbolic
