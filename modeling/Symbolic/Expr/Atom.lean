import Symbolic.Error
import Symbolic.Expr.Make
import Symbolic.Text.Utf8
import Symbolic.Token.Basic

/-! # Atoms

The expressions that single tokens stand for: symbols, numbers, strings, file names, slots,
references to outputs, and blanks of patterns. -/

namespace Symbolic.Expr

/-! ## Leaves -/

/-- The constant that a letter-like sign stands for, or else the name itself. -/
def canonicalName (name : String) : String :=
  match name.toList with
  | ['\u03c0'] => "Pi"
  | ['\u00b0'] => "Degree"
  | ['\u221e'] => "Infinity"
  | ['\uf74d'] => "E"
  | ['\uf74e'] | ['\uf74f'] => "I"
  | _ => name

/-- The number that a literal stands for. -/
def literal (text : List Char) (loc : Location) : Except SyntaxError Expr :=
  match Number.ofCharacters? text with
  | some value => .ok (.number value loc)
  | none => .error (.invalidNumber loc)

/-- The symbol, number or string of a token. A file name is a string. -/
def leaf (token : Token) : Except SyntaxError Expr :=
  match token.kind with
  | .symbol => .ok (.symbol (canonicalName token.text) token.loc)
  | .number => literal token.text.toList token.loc
  | .string | .filename => .ok (.string token.text token.loc)
  | found => .error (.unexpectedToken token.loc found)

/-! ## Slots and outputs -/

/-- What follows the first `n` bytes of a token's text; nothing if the text cannot be cut
    there. -/
def textAfter (n : Nat) (token : Token) : List Char :=
  (Text.dropBytes? n token.text.toList).getD []

/-- `#`, `#3` and `#name`. The first slot needs no number. -/
def slot (table : OperatorTable) (token : Token) : Except SyntaxError Expr := do
  let rest := textAfter 1 token
  let arg ←
    if rest.isEmpty then .ok (integer 1 token.loc)
    else if rest.all Char.isDigit then literal rest token.loc
    else .ok (.string (.ofList rest) token.loc)
  .ok (make table "Slot" [arg] token.loc)

/-- `##` and `##3`. -/
def slotSequence (table : OperatorTable) (token : Token) : Except SyntaxError Expr := do
  let rest := textAfter 2 token
  let arg ← if rest.isEmpty then .ok (integer 1 token.loc) else literal rest token.loc
  .ok (make table "SlotSequence" [arg] token.loc)

/-- `%` is the last output, `%%%` the third to last, `%5` the output of number 5. -/
def out (table : OperatorTable) (token : Token) : Except SyntaxError Expr := do
  let signs := token.text.toList
  let args ←
    if signs = ['%'] then .ok []
    else if signs.all (· == '%') then .ok [integer (-signs.length) token.loc]
    else (literal (textAfter 1 token) token.loc).map ([·])
  .ok (make table "Out" args token.loc)

/-! ## Blanks -/

/-- A pattern under a name; without a name just the pattern. -/
def namedPattern (table : OperatorTable) (name : List Char) (pattern : Expr) (loc : Location) :
    Expr :=
  if name.isEmpty then pattern
  else make table "Pattern" [.symbol (.ofList name) loc, pattern] loc

/-- The head of a blank of so many underscores. -/
def blankHead : Nat → String
  | 1 => "Blank"
  | 2 => "BlankSequence"
  | _ => "BlankNullSequence"

/-- The name of an optional blank: what stands before a final `_.`. -/
def optionalName? (text : List Char) : Option (List Char) :=
  match text.reverse with
  | '.' :: '_' :: name => some name.reverse
  | _ => none

/-- `x_`, `x__h`, `___`, `x_.` and the like. -/
def blank (table : OperatorTable) (token : Token) : Except SyntaxError Expr :=
  let text := token.text.toList
  match optionalName? text with
  | some name =>
    let pattern := namedPattern table name (make table "Blank" [] token.loc) token.loc
    .ok (make table "Optional" [pattern] token.loc)
  | none =>
    let name := text.takeWhile (· != '_')
    match text.dropWhile (· != '_') with
    | [] => .error (.unexpectedToken token.loc token.kind)
    | rest =>
      let head := rest.dropWhile (· == '_')
      let args := if head.isEmpty then [] else [.symbol (.ofList head) token.loc]
      let pattern := make table (blankHead (rest.length - head.length)) args token.loc
      .ok (namedPattern table name pattern token.loc)

/-! ## All atoms -/

/-- The expression of an atom. -/
def atom (table : OperatorTable) (token : Token) : Except SyntaxError Expr :=
  match token.kind with
  | .slot => slot table token
  | .slotSequence => slotSequence table token
  | .out => out table token
  | .blank => blank table token
  | _ => leaf token

end Symbolic.Expr
