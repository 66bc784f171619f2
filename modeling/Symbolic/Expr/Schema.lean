import Symbolic.Expr.Basic
import Symbolic.Schema

/-! # Expressions as data

The types that an expression is made of, as they are declared, and an expression as a value of
them. A part that has a place of its own in memory is declared like any other. -/

namespace Symbolic

/-! ## Locations and numbers -/

namespace Location

/-- The two offsets. -/
def datum (loc : Location) : Datum :=
  .record [("start", .word loc.start), ("end", .word loc.stop)]

/-- The location with the two offsets. -/
def ofDatum? : Datum → Option Location
  | .record [("start", .word start), ("end", .word stop)] => some ⟨start, stop⟩
  | _ => none

end Location

namespace Number

/-- The parts of a number. -/
def datum (n : Number) : Datum :=
  .record
    [("digits", .text n.digits), ("negative", .bool n.negative), ("base", .word n.base),
     ("precision", n.precision.elim .absent fun precision => .present (.text precision)),
     ("exponent", .long n.exponent)]

/-- The precision in a datum. -/
def precisionOfDatum? : Datum → Option (Option String)
  | .absent => some none
  | .present (.text precision) => some (some precision)
  | _ => none

/-- The number with the parts. -/
def ofDatum? : Datum → Option Number
  | .record
      [("digits", .text digits), ("negative", .bool negative), ("base", .word base),
       ("precision", precision), ("exponent", .long exponent)] =>
    (precisionOfDatum? precision).map fun precision =>
      ⟨digits, negative, base, precision, exponent⟩
  | _ => none

end Number

/-! ## Expressions -/

namespace Expr

/-- The declared types. -/
def declarations : String → Option Declaration
  | "Location" => some (.record [("start", .word), ("end", .word)])
  | "Number" => some (.record
      [("digits", .text), ("negative", .bool), ("base", .word), ("precision", .optional .text),
       ("exponent", .long)])
  | "Expr" => some (.choice
      [("Symbol", [.text, .named "Location"]), ("Number", [.named "Number", .named "Location"]),
       ("String", [.text, .named "Location"]), ("Node", [.named "Node"])])
  | "Node" => some (.record
      [("head", .named "Expr"), ("children", .list (.named "Expr")), ("parenthesized", .bool),
       ("loc", .named "Location")])
  | _ => none

mutual

/-- The expression as a value of its type. -/
def datum : Expr → Datum
  | .symbol name loc => .variant "Symbol" [.text name, loc.datum]
  | .number value loc => .variant "Number" [value.datum, loc.datum]
  | .string value loc => .variant "String" [.text value, loc.datum]
  | .node head children parenthesized loc =>
    .variant "Node"
      [.record
        [("head", head.datum), ("children", .list (allData children)),
         ("parenthesized", .bool parenthesized), ("loc", loc.datum)]]

/-- A list of expressions as values. -/
def allData : List Expr → List Datum
  | [] => []
  | e :: es => e.datum :: allData es

end

mutual

/-- The expression that a value stands for. -/
def ofDatum? : Datum → Option Expr
  | .variant "Symbol" [.text name, loc] => (Location.ofDatum? loc).map (.symbol name)
  | .variant "Number" [value, loc] => do
    some (.number (← Number.ofDatum? value) (← Location.ofDatum? loc))
  | .variant "String" [.text value, loc] => (Location.ofDatum? loc).map (.string value)
  | .variant "Node"
      [.record
        [("head", head), ("children", .list children), ("parenthesized", .bool parenthesized),
         ("loc", loc)]] => do
    let head ← ofDatum? head
    let children ← ofAllData? children
    some (.node head children parenthesized (← Location.ofDatum? loc))
  | _ => none

/-- The expressions that a list of values stands for. -/
def ofAllData? : List Datum → Option (List Expr)
  | [] => some []
  | d :: ds => do
    let e ← ofDatum? d
    let es ← ofAllData? ds
    some (e :: es)

end

end Expr

namespace Serialization

/-- The JSON of an expression. -/
def writeExpr (s : Serialization) (e : Expr) : Json :=
  s.write e.datum

/-- Reads an expression. -/
def readExpr (s : Serialization) (limit : Option Nat) (j : Json) : Option Expr :=
  (s.read Expr.declarations limit (.named "Expr") j).bind Expr.ofDatum?

end Serialization

end Symbolic
