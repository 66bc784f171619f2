import Symbolic.Bounded

/-! # JSON values

Values of the JSON data format, and how to take them apart. A number is a decimal fraction;
it is an integer only if it is written without decimal places. The fields of an object have an
order that means nothing. -/

namespace Symbolic

/-- A JSON value. -/
inductive Json where
  | null
  | bool (value : Bool)
  /-- The number `mantissa / 10 ^ places`. -/
  | number (mantissa : Int) (places : Nat)
  | string (value : String)
  | array (items : List Json)
  | object (fields : List (String × Json))
deriving Inhabited

namespace Json

/-- An integer. -/
def integer (n : Int) : Json :=
  .number n 0

/-- The value of an integer. -/
def integer? : Json → Option Int
  | .number n 0 => some n
  | _ => none

/-- The value of an integer that fits in 32 bits without a sign. -/
def word? (j : Json) : Option UInt32 :=
  j.integer?.bind Bounded.word?

/-- The value of an integer that fits in 64 bits with a sign. -/
def long? (j : Json) : Option Int64 :=
  j.integer?.bind Bounded.long?

/-- The first field of a given name. -/
def field? (name : String) : List (String × Json) → Option Json
  | [] => none
  | (key, value) :: fields => if key = name then some value else field? name fields

theorem mem_of_field? {name : String} {fields : List (String × Json)} {value : Json}
    (h : field? name fields = some value) : (name, value) ∈ fields := by
  induction fields with
  | nil => simp [field?] at h
  | cons field fields ih =>
    obtain ⟨key, other⟩ := field
    simp only [field?] at h
    split at h
    · rename_i hkey
      cases h
      simp [hkey]
    · exact List.mem_cons_of_mem _ (ih h)

theorem sizeOf_lt_of_field? {name : String} {fields : List (String × Json)} {value : Json}
    (h : field? name fields = some value) : sizeOf value < sizeOf fields := by
  have hlt := List.sizeOf_lt_of_mem (mem_of_field? h)
  simp only [Prod.mk.sizeOf_spec] at hlt
  omega

end Json

end Symbolic
