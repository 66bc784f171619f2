import Symbolic.Expr.Json
import Symbolic.Proofs.Serialization.Documented

/-!
# The plain serialization is documented

Plain JSON is written and read as `Documented` says of each kind of value, so nothing that is
derived from there is about nothing.

## Key results

- `plain_documented`: each kind of value is written and read in the plain way as it should be
-/

namespace Symbolic

open Json

namespace Datum

/-! ## Writing -/

/-- A list is written item by item. -/
theorem toJsonAll_eq_map (ds : List Datum) : toJsonAll ds = ds.map toJson := by
  induction ds with
  | nil => rw [toJsonAll, List.map_nil]
  | cons d ds ih => rw [toJsonAll, ih, List.map_cons]

/-- A record is written field by field. -/
theorem toJsonFields_eq_map (fields : List (String × Datum)) :
    toJsonFields fields = fields.map fun field => (field.1, field.2.toJson) := by
  induction fields with
  | nil => rw [toJsonFields, List.map_nil]
  | cons field fields ih => rw [toJsonFields, ih, List.map_cons]

/-- Several components are written as an array. -/
theorem toJson_variant_of_two_le {tag : String} {ds : List Datum} (h : 2 ≤ ds.length) :
    toJson (.variant tag ds) = .object [(tag, .array (ds.map toJson))] := by
  match ds with
  | d :: d' :: ds =>
    rw [toJson, toJsonAll_eq_map]
    rintro _ ⟨⟩

/-! ## Reading -/

variable {types : String → Option Declaration}

/-- The items of a list are read one by one. -/
theorem ofItems?_eq_some_iff {limit : Option Nat} {item : Schema} {js : List Json}
    {ds : List Datum} : ofItems? types limit item js = some ds ↔
      Serialization.ReadsEach (ofJson? types limit) (js.map fun _ => item) js ds := by
  induction js generalizing ds with
  | nil =>
    rw [ofItems?, Option.some.injEq]
    exact ⟨fun h => h ▸ .nil, fun h => by cases h; rfl⟩
  | cons j js ih =>
    rw [ofItems?]
    -- the array is read when its first value and the others are
    simp only [Option.bind_eq_bind, Option.bind_eq_some_iff, Option.some.injEq, ih]
    constructor
    · rintro ⟨d, hd, ds, hds, rfl⟩
      exact .cons hd hds
    · rintro (_ | ⟨hd, hds⟩)
      exact ⟨_, hd, _, hds, rfl⟩

/-- So are components, each of its type. Where their numbers differ, neither side holds. -/
theorem ofComponents?_eq_some_iff {limit : Option Nat} {schemas : List Schema} {js : List Json}
    {ds : List Datum} : ofComponents? types limit schemas js = some ds ↔
      Serialization.ReadsEach (ofJson? types limit) schemas js ds := by
  induction schemas generalizing js ds with
  | nil =>
    cases js with
    | nil =>
      rw [ofComponents?, Option.some.injEq]
      constructor
      · rintro rfl
        exact .nil
      · intro h
        cases h
        rfl
    | cons j js =>
      -- a value too many
      have hnone : ofComponents? types limit [] (j :: js) = none := by
        rw [ofComponents?] <;> simp
      rw [hnone]
      constructor <;> intro h <;> cases h
  | cons schema schemas ih =>
    cases js with
    | nil =>
      -- a value too few
      have hnone : ofComponents? types limit (schema :: schemas) [] = none := by
        rw [ofComponents?] <;> simp
      rw [hnone]
      constructor <;> intro h <;> cases h
    | cons j js =>
      rw [ofComponents?]
      simp only [Option.bind_eq_bind, Option.bind_eq_some_iff, Option.some.injEq, ih]
      constructor
      · rintro ⟨d, hd, ds, hds, rfl⟩
        exact .cons hd hds
      · rintro (_ | ⟨hd, hds⟩)
        exact ⟨_, hd, _, hds, rfl⟩

/-- A field whose name occurs is found. -/
theorem exists_field?_of_mem {name : String} {found : List (String × Json)}
    (h : name ∈ found.map Prod.fst) : ∃ j, field? name found = some j := by
  induction found with
  | nil => cases h
  | cons field found ih =>
    rw [field?]
    split
    · exact ⟨_, rfl⟩
    · rename_i hne
      exact ih ((List.mem_cons.mp h).resolve_left (Ne.symm hne))

/-- The fields of a record are read one by one, if none is missing. -/
theorem ofFields?_eq_some_iff {limit : Option Nat} {declared : List (String × Schema)}
    {found : List (String × Json)} (h : ∀ field ∈ declared, field.1 ∈ found.map Prod.fst)
    {fields : List (String × Datum)} : ofFields? types limit declared found = some fields ↔
      Serialization.ReadsFields (ofJson? types limit) found declared fields := by
  induction declared generalizing fields with
  | nil =>
    rw [ofFields?, Option.some.injEq]
    exact ⟨fun h => h ▸ .nil, fun h => by cases h; rfl⟩
  | cons field declared ih =>
    obtain ⟨name, schema⟩ := field
    rw [List.forall_mem_cons] at h
    -- the field is there, so the branch that leaves it out is never taken
    obtain ⟨j, hj⟩ := exists_field?_of_mem h.1
    rw [ofFields?]
    split
    · rename_i j' hj'
      cases hj.symm.trans hj'
      simp only [Option.bind_eq_some_iff, Option.map_eq_some_iff, ih h.2]
      constructor
      · rintro ⟨d, hd, ds, hds, rfl⟩
        exact .cons hj hd hds
      · intro hreads
        cases hreads with
        | cons hlookup hd hds =>
          cases hj.symm.trans hlookup
          exact ⟨_, hd, _, hds, rfl⟩
    · rename_i hnone
      cases hj.symm.trans hnone

/-- What is read one level further in is there if there is a level left. -/
theorem inward_bind_map_eq_some_iff {α : Type} {limit : Option Nat}
    {inside : Option Nat → Option α} {wrap : α → Datum} {d : Datum} :
    ((inward limit).bind fun inner => (inside inner).map wrap) = some d ↔
      ∃ inner a, inward limit = some inner ∧ d = wrap a ∧ inside inner = some a := by
  simp only [Option.bind_eq_some_iff, Option.map_eq_some_iff]
  constructor
  · rintro ⟨inner, hinner, a, ha, rfl⟩
    exact ⟨inner, a, hinner, rfl, ha⟩
  · rintro ⟨inner, a, hinner, rfl, ha⟩
    exact ⟨inner, hinner, a, ha, rfl⟩

/-- A list is an array one level further out than its items. -/
theorem ofJson?_list_iff {limit : Option Nat} {item : Schema} {js : List Json} {d : Datum} :
    ofJson? types limit (.list item) (.array js) = some d ↔
      ∃ inner ds, inward limit = some inner ∧ d = .list ds ∧
        Serialization.ReadsEach (ofJson? types inner) (js.map fun _ => item) js ds := by
  rw [ofJson?, inward_bind_map_eq_some_iff]
  simp only [ofItems?_eq_some_iff]

/-- A record is an object one level further out than its fields. -/
theorem ofJson?_record_iff {limit : Option Nat} {name : String}
    {declared : List (String × Schema)} {found : List (String × Json)} {d : Datum}
    (htypes : types name = some (.record declared))
    (hfound : ∀ field ∈ declared, field.1 ∈ found.map Prod.fst) :
    ofJson? types limit (.named name) (.object found) = some d ↔
      ∃ inner fields, inward limit = some inner ∧ d = .record fields ∧
        Serialization.ReadsFields (ofJson? types inner) found declared fields := by
  rw [ofJson?, htypes, inward_bind_map_eq_some_iff]
  simp only [ofFields?_eq_some_iff hfound]

/-- A variant with one component is an object one level further out than that. -/
theorem ofJson?_component_iff {limit : Option Nat} {name tag : String}
    {variants : List (String × List Schema)} {schema : Schema} {j : Json} {d : Datum}
    (htypes : types name = some (.choice variants))
    (hvariant : variants.lookup tag = some [schema]) :
    ofJson? types limit (.named name) (.object [(tag, j)]) = some d ↔
      ∃ inner component, inward limit = some inner ∧ d = .variant tag [component] ∧
        ofJson? types inner schema j = some component := by
  rw [ofJson?, htypes]
  simp only [hvariant]
  rw [inward_bind_map_eq_some_iff]

/-- A variant with several components is an object two levels further out than those. -/
theorem ofJson?_components_iff {limit : Option Nat} {name tag : String}
    {variants : List (String × List Schema)} {schemas : List Schema} {js : List Json} {d : Datum}
    (htypes : types name = some (.choice variants))
    (hvariant : variants.lookup tag = some schemas) (htwo : 2 ≤ schemas.length) :
    ofJson? types limit (.named name) (.object [(tag, .array js)]) = some d ↔
      ∃ inner inner' ds, inward limit = some inner ∧ inward inner = some inner' ∧
        d = .variant tag ds ∧ Serialization.ReadsEach (ofJson? types inner') schemas js ds := by
  match schemas with
  | schema :: schema' :: schemas =>
    rw [ofJson?, htypes]
    simp only [hvariant, Option.bind_eq_some_iff, Option.map_eq_some_iff,
      ofComponents?_eq_some_iff]
    constructor
    · rintro ⟨inner, hinner, inner', hinner', ds, hds, rfl⟩
      exact ⟨inner, inner', ds, hinner, hinner', rfl, hds⟩
    · rintro ⟨inner, inner', ds, hinner, hinner', rfl, hds⟩
      exact ⟨inner, hinner, inner', hinner', ds, hds, rfl⟩

end Datum

namespace Serialization

/-- Values are written in the plain way. -/
theorem plain_write : plain.write = Datum.toJson :=
  rfl

/-- Values are read in the plain way. -/
theorem plain_read : plain.read = Datum.ofJson? :=
  rfl

/-- The plain serialization does with each kind of value what is documented. -/
theorem plain_documented : plain.Documented where
  write_bool _ := by rw [plain_write, Datum.toJson]
  write_word _ := by rw [plain_write, Datum.toJson]
  write_long _ := by rw [plain_write, Datum.toJson]
  write_text _ := by rw [plain_write, Datum.toJson]
  write_absent := by rw [plain_write, Datum.toJson]
  write_present _ := by rw [plain_write, Datum.toJson]
  write_list _ := by rw [plain_write, Datum.toJson, Datum.toJsonAll_eq_map]
  write_record _ := by rw [plain_write, Datum.toJson, Datum.toJsonFields_eq_map]
  write_component _ _ := by rw [plain_write, Datum.toJson]
  write_components _ _ htwo := by rw [plain_write, Datum.toJson_variant_of_two_le htwo]
  -- the laws of reading, each from the branch of its schema
  read_bool _ _ _ := by rw [plain_read, Datum.ofJson?]
  read_word _ _ value := by
    rw [plain_read, Datum.ofJson?, integer, word?, integer?, Option.bind_some,
      Bounded.word?_toNat, Option.map_some]
  read_long _ _ value := by
    rw [plain_read, Datum.ofJson?, integer, long?, integer?, Option.bind_some,
      Bounded.long?_toInt, Option.map_some]
  read_text _ _ _ := by rw [plain_read, Datum.ofJson?]
  read_absent _ _ _ := by rw [plain_read, Datum.ofJson?]
  read_present _ _ _ j hj := by
    rw [plain_read, Datum.ofJson?]
    exact hj
  read_list _ _ _ _ _ := by rw [plain_read, Datum.ofJson?_list_iff]
  read_record _ _ _ _ _ _ htypes _ hfound := by
    rw [plain_read, Datum.ofJson?_record_iff htypes hfound]
  read_component _ _ _ _ _ _ _ _ htypes hvariant := by
    rw [plain_read, Datum.ofJson?_component_iff htypes hvariant]
  read_components _ _ _ _ _ _ _ _ htypes hvariant htwo := by
    rw [plain_read, Datum.ofJson?_components_iff htypes hvariant htwo]

end Serialization

end Symbolic
