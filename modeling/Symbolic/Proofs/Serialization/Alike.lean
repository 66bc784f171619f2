import Mathlib.Data.List.Nodup
import Mathlib.Data.List.Perm.Basic
import Symbolic.Schema

/-!
# JSON values up to the order of fields

The order of the fields of an object means nothing, so two values may be the same but for that. A
lookup finds the same in both, as long as no name occurs twice.

Where a reader is held to some number of levels, each array and each object takes one of them from
what is inside.

## Key results

- `Alike`: values that are the same but for the order of fields
- `AlikeFields.field?`: the order of the fields does not matter to a lookup
- `within_array_iff`, `within_object_iff`: what nests no deeper than a limit allows
-/

namespace Symbolic.Json

/-! ## Values up to the order of fields -/

mutual

/-- Two values that are the same, but for the order of the fields in their objects. -/
inductive Alike : Json → Json → Prop
  | null : Alike .null .null
  | bool (value : Bool) : Alike (.bool value) (.bool value)
  | number (mantissa : Int) (places : Nat) :
      Alike (.number mantissa places) (.number mantissa places)
  | string (value : String) : Alike (.string value) (.string value)
  | array {items items' : List Json} (h : AlikeItems items items') :
      Alike (.array items) (.array items')
  | object {fields fields' : List (String × Json)} (h : AlikeFields fields fields') :
      Alike (.object fields) (.object fields')

/-- Two lists of values that are the same in order. -/
inductive AlikeItems : List Json → List Json → Prop
  | nil : AlikeItems [] []
  | cons {j j' : Json} {js js' : List Json} (head : Alike j j') (tail : AlikeItems js js') :
      AlikeItems (j :: js) (j' :: js')

/-- Two lists of fields that are the same in some order. -/
inductive AlikeFields : List (String × Json) → List (String × Json) → Prop
  | nil : AlikeFields [] []
  | cons {key : String} {value value' : Json} {fields before after : List (String × Json)}
      (head : Alike value value') (tail : AlikeFields fields (before ++ after)) :
      AlikeFields ((key, value) :: fields) (before ++ (key, value') :: after)

end

mutual

/-- A value differs from itself in nothing. -/
theorem Alike.refl : ∀ j : Json, Alike j j
  | .null => .null
  | .bool value => .bool value
  | .number mantissa places => .number mantissa places
  | .string value => .string value
  | .array items => .array (AlikeItems.refl items)
  | .object fields => .object (AlikeFields.refl fields)

/-- Items are like themselves. -/
theorem AlikeItems.refl : ∀ items : List Json, AlikeItems items items
  | [] => .nil
  | j :: js => .cons (Alike.refl j) (AlikeItems.refl js)

/-- Fields are like themselves. -/
theorem AlikeFields.refl : ∀ fields : List (String × Json), AlikeFields fields fields
  | [] => .nil
  | (key, value) :: fields =>
    @AlikeFields.cons key value value fields [] fields (Alike.refl value) (AlikeFields.refl fields)

end

/-! ## Looking up a field -/

/-- Fields in another order have the same names. -/
theorem AlikeFields.perm_keys {fields fields' : List (String × Json)}
    (h : AlikeFields fields fields') : (fields.map Prod.fst).Perm (fields'.map Prod.fst) := by
  induction fields generalizing fields' with
  | nil => cases h; exact .nil
  | cons field fields ih =>
    cases h with
    | @cons key _ _ _ _ _ _ tail =>
      -- the first field stands somewhere among the others
      have hperm := (ih tail).cons key
      simp only [List.map_append, List.map_cons] at hperm ⊢
      exact hperm.trans List.perm_middle.symm

/-- A lookup passes a field with another name. -/
theorem field?_append_of_ne {name key : String} (hne : key ≠ name) (value : Json)
    (before after : List (String × Json)) :
    field? name (before ++ (key, value) :: after) = field? name (before ++ after) := by
  induction before with
  | nil => simp [field?, hne]
  | cons field before ih => simp only [List.cons_append, field?, ih]

/-- A lookup stops at the first field with the name. -/
theorem field?_append_of_not_mem {name : String} {before : List (String × Json)}
    (h : name ∉ before.map Prod.fst) (value : Json) (after : List (String × Json)) :
    field? name (before ++ (name, value) :: after) = some value := by
  induction before with
  | nil => simp [field?]
  | cons field before ih =>
    simp only [List.map_cons, List.mem_cons, not_or] at h
    simp only [List.cons_append, field?, if_neg (Ne.symm h.1), ih h.2]

/-- Where each name occurs once, the order of the fields does not matter to a lookup. -/
theorem AlikeFields.field? {fields fields' : List (String × Json)}
    (h : AlikeFields fields fields') (hkeys : (fields.map Prod.fst).Nodup) (name : String)
    {value : Json} (hfield : Json.field? name fields = some value) :
    ∃ value', Json.field? name fields' = some value' ∧ Alike value value' := by
  induction fields generalizing fields' with
  | nil => simp [Json.field?] at hfield
  | cons field fields ih =>
    obtain ⟨key, other⟩ := field
    rw [List.map_cons, List.nodup_cons] at hkeys
    cases h with
    | @cons _ _ other' _ before after head tail =>
      by_cases hname : key = name
      · -- no field before this one has the name
        subst hname
        obtain rfl : other = value := by simpa [Json.field?] using hfield
        have hnot : key ∉ before.map Prod.fst := fun hmem =>
          hkeys.1 (tail.perm_keys.mem_iff.mpr (by simp_all))
        exact ⟨other', field?_append_of_not_mem hnot other' after, head⟩
      · -- the field that is looked up is among the others
        rw [field?_append_of_ne hname]
        exact ih tail hkeys.2 (by simpa [Json.field?, hname] using hfield)

/-! ## Values that are alike to a given one -/

/-- There is only one order for one field. -/
theorem AlikeFields.of_singleton {key : String} {value : Json} {fields : List (String × Json)}
    (h : AlikeFields [(key, value)] fields) : ∃ value', fields = [(key, value')] ∧
      Alike value value' := by
  cases h with
  | @cons _ _ value' _ before after head tail =>
    -- nothing is left over before or behind the field
    generalize hrest : before ++ after = rest at tail
    cases tail
    obtain ⟨rfl, rfl⟩ := List.append_eq_nil_iff.mp hrest
    exact ⟨value', rfl, head⟩

/-- Nothing but itself is the same as a number, and so for a string and a truth value. -/
theorem Alike.of_number {mantissa : Int} {places : Nat} {j : Json}
    (h : Alike (.number mantissa places) j) : j = .number mantissa places := by
  cases h; rfl

/-- Only the same string is like a string. -/
theorem Alike.of_string {value : String} {j : Json} (h : Alike (.string value) j) :
    j = .string value := by
  cases h; rfl

/-- Only the same truth value is like one. -/
theorem Alike.of_bool {value : Bool} {j : Json} (h : Alike (.bool value) j) :
    j = .bool value := by
  cases h; rfl

/-- One item stands in place of another one. -/
theorem AlikeItems.length_eq {items items' : List Json} (h : AlikeItems items items') :
    items.length = items'.length := by
  induction items generalizing items' with
  | nil => cases h; rfl
  | cons j js ih =>
    cases h with
    | cons _ tail => rw [List.length_cons, List.length_cons, ih tail]

/-! ## How deep values nest -/

/-- No more arrays and objects nest in the value than the limit allows, if there is one. -/
def Within (limit : Option Nat) (j : Json) : Prop :=
  ∀ n ∈ limit, j.levels ≤ n

/-- Without a limit values nest as deep as they like. -/
theorem within_none (j : Json) : Within none j :=
  fun _ hn => nomatch hn

/-- No item nests deeper than a bound if none does by itself. -/
theorem levelsOfItems_le_iff {items : List Json} {n : Nat} :
    levelsOfItems items ≤ n ↔ ∀ j ∈ items, j.levels ≤ n := by
  induction items with
  | nil => simp [levelsOfItems]
  | cons j js ih => rw [levelsOfItems, Nat.max_le, ih, List.forall_mem_cons]

/-- No field nests deeper than a bound if none does by itself. -/
theorem levelsOfFields_le_iff {fields : List (String × Json)} {n : Nat} :
    levelsOfFields fields ≤ n ↔ ∀ field ∈ fields, field.2.levels ≤ n := by
  induction fields with
  | nil => simp [levelsOfFields]
  | cons field fields ih => rw [levelsOfFields, Nat.max_le, ih, List.forall_mem_cons]

/-- What takes one level more than its parts is within a limit just if its parts are within the
    limit that is left to them. -/
theorem within_iff_of_levels {j : Json} {deepest : Nat} (hj : j.levels = deepest + 1)
    {P : Option Nat → Prop} (hnone : P none) (hsome : ∀ n, P (some n) ↔ deepest ≤ n)
    (limit : Option Nat) :
    Within limit j ↔ ∃ inner, inward limit = some inner ∧ P inner := by
  -- no limit, none that lets anything nest, and one that has a level to give
  match limit with
  | none => simp [within_none, inward, hnone]
  | some 0 => simp [Within, inward, hj]
  | some (n + 1) => simp [Within, inward, hj, hsome]

/-- An array takes a level from its items. -/
theorem within_array_iff {items : List Json} {limit : Option Nat} :
    Within limit (.array items) ↔
      ∃ inner, inward limit = some inner ∧ ∀ j ∈ items, Within inner j := by
  have hlevels : levels (.array items) = levelsOfItems items + 1 := by
    rw [levels]
  refine within_iff_of_levels hlevels (fun j _ => within_none j) (fun n => ?_) limit
  simp [Within, levelsOfItems_le_iff]

/-- An object takes a level from its fields. -/
theorem within_object_iff {fields : List (String × Json)} {limit : Option Nat} :
    Within limit (.object fields) ↔
      ∃ inner, inward limit = some inner ∧ ∀ field ∈ fields, Within inner field.2 := by
  have hlevels : levels (.object fields) = levelsOfFields fields + 1 := by
    rw [levels]
  have hnone : ∀ field ∈ fields, Within none field.2 := fun field _ => within_none field.2
  refine within_iff_of_levels hlevels hnone (fun n => ?_) limit
  simp [Within, levelsOfFields_le_iff]

end Symbolic.Json
