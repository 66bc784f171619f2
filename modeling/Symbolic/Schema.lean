import Symbolic.Json

/-! # Types as they are declared

A type is declared as a record of named fields, or as a choice between named variants with
components. The values of such types can be written as JSON and read back by code that is told
no more than the declarations. That code is no part of this library: `Serialization` stands for
any of it. -/

namespace Symbolic

/-- The type of a field, of a component or of the items of a list. -/
inductive Schema where
  | bool
  /-- A 32-bit word without a sign. -/
  | word
  /-- A 64-bit word with a sign. -/
  | long
  | text
  | optional (item : Schema)
  | list (item : Schema)
  /-- A declared type. -/
  | named (name : String)

/-- What a named type is declared as. -/
inductive Declaration where
  | record (fields : List (String × Schema))
  | choice (variants : List (String × List Schema))

/-- A value of a declared type. -/
inductive Datum where
  | bool (value : Bool)
  | word (value : UInt32)
  | long (value : Int64)
  | text (value : String)
  | absent
  | present (value : Datum)
  | list (items : List Datum)
  | record (fields : List (String × Datum))
  | variant (name : String) (components : List Datum)
deriving Inhabited

/-- Code that writes values as JSON, and reads the values of declared types. A reader may be held
    to a number of levels that arrays and objects can nest. -/
structure Serialization where
  write : Datum → Json
  read : (String → Option Declaration) → Option Nat → Schema → Json → Option Datum

namespace Json

/-- How many levels may nest within an array or an object, where one level more may nest in all.
    There is no such array or object where none may. -/
def inward : Option Nat → Option (Option Nat)
  | none => some none
  | some 0 => none
  | some (n + 1) => some (some n)

mutual

/-- How many arrays and objects nest in a value. -/
def levels : Json → Nat
  | .array items => levelsOfItems items + 1
  | .object fields => levelsOfFields fields + 1
  | _ => 0

/-- How many arrays and objects nest in any item. -/
def levelsOfItems : List Json → Nat
  | [] => 0
  | j :: js => max j.levels (levelsOfItems js)

/-- How many arrays and objects nest in any field. -/
def levelsOfFields : List (String × Json) → Nat
  | [] => 0
  | (_, j) :: fields => max j.levels (levelsOfFields fields)

end

end Json

end Symbolic
