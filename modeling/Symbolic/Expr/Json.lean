import Symbolic.Expr.Schema

/-! # Plain JSON

A serialization to run. A record is an object of its fields, a list is an array of its items, and
a variant is an object with one field, named for the variant: that holds its component, or the
array of them if there are several. Nothing is written for an absent value but null. Reading takes
the fields of a record in any order, and a field that may be absent can be missing. -/

namespace Symbolic

namespace Datum

mutual

/-- The JSON of a value. -/
def toJson : Datum → Json
  | .bool value => .bool value
  | .word value => .integer value.toNat
  | .long value => .integer value.toInt
  | .text value => .string value
  | .absent => .null
  | .present value => value.toJson
  | .list items => .array (toJsonAll items)
  | .record fields => .object (toJsonFields fields)
  | .variant name [component] => .object [(name, component.toJson)]
  | .variant name components => .object [(name, .array (toJsonAll components))]

/-- The JSON of several values. -/
def toJsonAll : List Datum → List Json
  | [] => []
  | d :: ds => d.toJson :: toJsonAll ds

/-- The JSON of the values of fields. -/
def toJsonFields : List (String × Datum) → List (String × Json)
  | [] => []
  | (name, d) :: fields => (name, d.toJson) :: toJsonFields fields

end

/-- The value of a field that is missing, if it may be absent. -/
def ofMissing? : Schema → Option Datum
  | .optional _ => some .absent
  | _ => none

mutual

/-- Reads a value of a type. -/
def ofJson? (types : String → Option Declaration) (limit : Option Nat) :
    Schema → Json → Option Datum
  | .bool, .bool value => some (.bool value)
  | .word, j => j.word?.map .word
  | .long, j => j.long?.map .long
  | .text, .string value => some (.text value)
  | .optional _, .null => some .absent
  | .optional item, j => (ofJson? types limit item j).map .present
  | .list item, .array js =>
    (Json.inward limit).bind fun limit => (ofItems? types limit item js).map .list
  | .named name, .object found =>
    (Json.inward limit).bind fun limit =>
      match types name with
      | some (.record declared) => (ofFields? types limit declared found).map .record
      | some (.choice variants) =>
        match found with
        | [(tag, content)] => match variants.lookup tag, content with
          | some [schema], content =>
            (ofJson? types limit schema content).map fun component => .variant tag [component]
          | some schemas, .array js =>
            (Json.inward limit).bind fun limit =>
              (ofComponents? types limit schemas js).map (.variant tag)
          | _, _ => none
        | _ => none
      | none => none
  | _, _ => none
termination_by schema j => (sizeOf j, sizeOf schema)

/-- Reads the items of a list. -/
def ofItems? (types : String → Option Declaration) (limit : Option Nat) (item : Schema) :
    List Json → Option (List Datum)
  | [] => some []
  | j :: js => do
    let d ← ofJson? types limit item j
    let ds ← ofItems? types limit item js
    some (d :: ds)
termination_by js => (sizeOf js, 0)

/-- Reads components, of a type each. -/
def ofComponents? (types : String → Option Declaration) (limit : Option Nat) :
    List Schema → List Json → Option (List Datum)
  | [], [] => some []
  | schema :: schemas, j :: js => do
    let d ← ofJson? types limit schema j
    let ds ← ofComponents? types limit schemas js
    some (d :: ds)
  | _, _ => none
termination_by _ js => (sizeOf js, 0)

/-- Reads the declared fields from those that are found. -/
def ofFields? (types : String → Option Declaration) (limit : Option Nat) :
    List (String × Schema) → List (String × Json) → Option (List (String × Datum))
  | [], _ => some []
  | (name, schema) :: declared, found =>
    Option.bind
      (match _hfound : Json.field? name found with
        | some j => ofJson? types limit schema j
        | none => ofMissing? schema)
      fun d => (ofFields? types limit declared found).map fun ds => (name, d) :: ds
termination_by declared found => (sizeOf found, sizeOf declared)
decreasing_by
  · have := Json.sizeOf_lt_of_field? _hfound
    exact Prod.Lex.left _ _ this
  · apply Prod.Lex.right
    simp only [List.cons.sizeOf_spec]
    omega

end

end Datum

/-- The plain serialization. -/
def Serialization.plain : Serialization :=
  ⟨Datum.toJson, Datum.ofJson?⟩

namespace Expr

/-- The plain JSON of an expression. -/
def toJson (e : Expr) : Json :=
  Serialization.plain.writeExpr e

/-- Reads an expression from plain JSON, however many levels nest in it. -/
def ofJson? (j : Json) : Option Expr :=
  Serialization.plain.readExpr none j

end Expr

end Symbolic
