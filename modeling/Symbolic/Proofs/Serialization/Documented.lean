import Mathlib.Data.List.Forall2
import Symbolic.Proofs.Serialization.Alike

/-!
# Values that are read back

Nothing is known of a serialization but how each kind of value is written, and how such JSON is
read: that is what `Documented` lists. From it, the values of declared types are read back part by
part. A list is read back if its items are, a record if its fields are, and a variant if its
components are, wherever the fields of an object have come to stand. A reader that is held to some
number of levels refuses just what nests deeper.

## Key results

- `Documented`: what a serialization does with each kind of value
- `ReadsBack`: a value is read back, unless its JSON nests too deep for the reader
- `Documented.readsBack_list`, `Documented.readsBack_record`, `Documented.readsBack_component`,
  `Documented.readsBack_components`: from parts to a whole
-/

namespace Symbolic.Serialization

open Json

/-! ## What a serialization does -/

/-- Reads a list of values, of a type each. -/
inductive ReadsEach (read : Schema → Json → Option Datum) :
    List Schema → List Json → List Datum → Prop where
  | nil : ReadsEach read [] [] []
  | cons {schema : Schema} {schemas : List Schema} {j : Json} {js : List Json} {d : Datum}
      {ds : List Datum} (head : read schema j = some d) (tail : ReadsEach read schemas js ds) :
      ReadsEach read (schema :: schemas) (j :: js) (d :: ds)

/-- Reads the declared fields, each from the first field of its name. -/
inductive ReadsFields (read : Schema → Json → Option Datum) (found : List (String × Json)) :
    List (String × Schema) → List (String × Datum) → Prop where
  | nil : ReadsFields read found [] []
  | cons {name : String} {schema : Schema} {declared : List (String × Schema)} {j : Json}
      {d : Datum} {fields : List (String × Datum)} (lookup : field? name found = some j)
      (head : read schema j = some d) (tail : ReadsFields read found declared fields) :
      ReadsFields read found ((name, schema) :: declared) ((name, d) :: fields)

/-- What a serialization does with each kind of value. A record is written as the object of its
    fields, and a variant as an object of one field, which is named for the variant and holds the
    component, or the array of several components. Null stands for what is absent, so it is not to
    stand for what is present. Nothing is said of objects that are not written for a value. -/
structure Documented (s : Serialization) : Prop where
  write_bool : ∀ value, s.write (.bool value) = .bool value
  write_word : ∀ value, s.write (.word value) = .integer value.toNat
  write_long : ∀ value, s.write (.long value) = .integer value.toInt
  write_text : ∀ value, s.write (.text value) = .string value
  write_absent : s.write .absent = .null
  write_present : ∀ d, s.write (.present d) = s.write d
  write_list : ∀ ds, s.write (.list ds) = .array (ds.map s.write)
  write_record : ∀ fields,
    s.write (.record fields) = .object (fields.map fun field => (field.1, s.write field.2))
  write_component : ∀ tag d, s.write (.variant tag [d]) = .object [(tag, s.write d)]
  write_components : ∀ tag ds, 2 ≤ ds.length →
    s.write (.variant tag ds) = .object [(tag, .array (ds.map s.write))]
  read_bool : ∀ types limit value,
    s.read types limit .bool (.bool value) = some (.bool value)
  read_word : ∀ types limit (value : UInt32),
    s.read types limit .word (.integer value.toNat) = some (.word value)
  read_long : ∀ types limit (value : Int64),
    s.read types limit .long (.integer value.toInt) = some (.long value)
  read_text : ∀ types limit value,
    s.read types limit .text (.string value) = some (.text value)
  read_absent : ∀ types limit item, s.read types limit (.optional item) .null = some .absent
  read_present : ∀ types limit item j, j ≠ .null →
    s.read types limit (.optional item) j = (s.read types limit item j).map .present
  read_list : ∀ types limit item js d, s.read types limit (.list item) (.array js) = some d ↔
    ∃ inner ds, inward limit = some inner ∧ d = .list ds ∧
      ReadsEach (s.read types inner) (js.map fun _ => item) js ds
  read_record : ∀ types limit name declared found d, types name = some (.record declared) →
    (found.map Prod.fst).Nodup → (∀ field ∈ declared, field.1 ∈ found.map Prod.fst) →
    (s.read types limit (.named name) (.object found) = some d ↔
      ∃ inner fields, inward limit = some inner ∧ d = .record fields ∧
        ReadsFields (s.read types inner) found declared fields)
  read_component : ∀ types limit name variants tag schema j d,
    types name = some (.choice variants) → variants.lookup tag = some [schema] →
    (s.read types limit (.named name) (.object [(tag, j)]) = some d ↔
      ∃ inner component, inward limit = some inner ∧ d = .variant tag [component] ∧
        s.read types inner schema j = some component)
  read_components : ∀ types limit name variants tag schemas js d,
    types name = some (.choice variants) → variants.lookup tag = some schemas →
    2 ≤ schemas.length →
    (s.read types limit (.named name) (.object [(tag, .array js)]) = some d ↔
      ∃ inner inner' ds, inward limit = some inner ∧ inward inner = some inner' ∧
        d = .variant tag ds ∧ ReadsEach (s.read types inner') schemas js ds)

/-- The JSON of the value, whatever the order of fields has become, is read as that value and
    nothing else, unless more levels nest in it than the reader goes down. -/
def ReadsBack (s : Serialization) (types : String → Option Declaration) (schema : Schema)
    (d : Datum) : Prop :=
  ∀ limit j d', Alike (s.write d) j →
    (s.read types limit schema j = some d' ↔ d' = d ∧ Within limit (s.write d))

namespace Documented

variable {s : Serialization} {types : String → Option Declaration}

/-! ## Values without parts -/

/-- What takes no level is read back within any limit. -/
theorem readsBack_of_read {schema : Schema} {d : Datum} (hlevels : (s.write d).levels = 0)
    (hread : ∀ limit j, Alike (s.write d) j → s.read types limit schema j = some d) :
    s.ReadsBack types schema d := by
  intro limit j d' halike
  have hwithin : Within limit (s.write d) := fun n _ => hlevels ▸ Nat.zero_le n
  rw [hread limit j halike, Option.some.injEq, eq_comm]
  exact (and_iff_left hwithin).symm

/-- A truth value is read back. -/
theorem readsBack_bool (h : s.Documented) (value : Bool) :
    s.ReadsBack types .bool (.bool value) := by
  refine readsBack_of_read (by rw [h.write_bool]; rfl) fun limit j halike => ?_
  rw [h.write_bool] at halike
  rw [halike.of_bool, h.read_bool]

/-- A word is read back. -/
theorem readsBack_word (h : s.Documented) (value : UInt32) :
    s.ReadsBack types .word (.word value) := by
  refine readsBack_of_read (by rw [h.write_word]; rfl) fun limit j halike => ?_
  rw [h.write_word] at halike
  rw [halike.of_number]
  exact h.read_word types limit value

/-- A long word is read back. -/
theorem readsBack_long (h : s.Documented) (value : Int64) :
    s.ReadsBack types .long (.long value) := by
  refine readsBack_of_read (by rw [h.write_long]; rfl) fun limit j halike => ?_
  rw [h.write_long] at halike
  rw [halike.of_number]
  exact h.read_long types limit value

/-- A text is read back. -/
theorem readsBack_text (h : s.Documented) (value : String) :
    s.ReadsBack types .text (.text value) := by
  refine readsBack_of_read (by rw [h.write_text]; rfl) fun limit j halike => ?_
  rw [h.write_text] at halike
  rw [halike.of_string, h.read_text]

/-! ## Options and lists -/

/-- What is absent is read back. -/
theorem readsBack_absent (h : s.Documented) (item : Schema) :
    s.ReadsBack types (.optional item) .absent := by
  refine readsBack_of_read (by rw [h.write_absent]; rfl) fun limit j halike => ?_
  rw [h.write_absent] at halike
  cases halike
  rw [h.read_absent]

/-- An optional value that is present is read back, unless it is written as null. -/
theorem readsBack_present (h : s.Documented) {item : Schema} {d : Datum}
    (hd : s.ReadsBack types item d) (hne : s.write d ≠ .null) :
    s.ReadsBack types (.optional item) (.present d) := by
  intro limit j d' halike
  rw [h.write_present] at halike ⊢
  -- what is written is not null, in any order of its fields
  have hj : j ≠ .null := by
    rintro rfl
    generalize s.write d = written at halike hne
    cases halike
    exact hne rfl
  rw [h.read_present types limit item j hj, Option.map_eq_some_iff]
  constructor
  · rintro ⟨inner, hinner, rfl⟩
    obtain ⟨rfl, hwithin⟩ := (hd limit j inner halike).mp hinner
    exact ⟨rfl, hwithin⟩
  · rintro ⟨rfl, hwithin⟩
    exact ⟨d, (hd limit j d halike).mpr ⟨rfl, hwithin⟩, rfl⟩

/-- Several values are read back if each of them is. -/
theorem readsEach_iff {schemas : List Schema} {ds : List Datum}
    (h : List.Forall₂ (s.ReadsBack types) schemas ds) {inner : Option Nat} {js : List Json}
    (halike : AlikeItems (ds.map s.write) js) (ds' : List Datum) :
    ReadsEach (s.read types inner) schemas js ds' ↔
      ds' = ds ∧ ∀ j ∈ ds.map s.write, Within inner j := by
  -- induction on the items, one read after the other
  induction h generalizing js ds' with
  | nil =>
    cases halike
    constructor
    · rintro ⟨⟩
      exact ⟨rfl, by simp⟩
    · rintro ⟨rfl, -⟩
      exact .nil
  | @cons schema d schemas ds hd _ ih =>
    rw [List.map_cons] at halike ⊢
    cases halike with
    | cons head tail =>
      rw [List.forall_mem_cons]
      constructor
      · rintro (_ | ⟨hread, hreads⟩)
        obtain ⟨rfl, hwithin⟩ := (hd _ _ _ head).mp hread
        obtain ⟨rfl, hwithin'⟩ := (ih tail _).mp hreads
        exact ⟨rfl, hwithin, hwithin'⟩
      · rintro ⟨rfl, hwithin, hwithin'⟩
        exact .cons ((hd _ _ _ head).mpr ⟨rfl, hwithin⟩) ((ih tail _).mpr ⟨rfl, hwithin'⟩)

/-- A list is read back if its items are. -/
theorem readsBack_list (h : s.Documented) {item : Schema} {ds : List Datum}
    (hds : ∀ d ∈ ds, s.ReadsBack types item d) : s.ReadsBack types (.list item) (.list ds) := by
  intro limit j d' halike
  rw [h.write_list] at halike ⊢
  cases halike with
  | @array _ js hitems =>
    -- every item is of the one type
    have hlength : ds.length = js.length := by
      rw [← hitems.length_eq, List.length_map]
    have heach : List.Forall₂ (s.ReadsBack types) (js.map fun _ => item) ds := by
      rw [List.forall₂_map_left_iff, List.forall₂_iff_zip]
      exact ⟨hlength.symm, fun hmem => hds _ (List.of_mem_zip hmem).2⟩
    rw [h.read_list, within_array_iff]
    constructor
    · rintro ⟨inner, ds', hinner, rfl, hreads⟩
      obtain ⟨rfl, hwithin⟩ := (readsEach_iff heach hitems ds').mp hreads
      exact ⟨rfl, inner, hinner, hwithin⟩
    · rintro ⟨rfl, inner, hinner, hwithin⟩
      exact ⟨inner, ds, hinner, rfl, (readsEach_iff heach hitems ds).mpr ⟨rfl, hwithin⟩⟩

/-! ## Records -/

/-- The fields of a record are read back if each of them is, where their names are found. -/
theorem readsFields_iff {declared : List (String × Schema)} {fields : List (String × Datum)}
    {found : List (String × Json)}
    (h : List.Forall₂ (fun field value => field.1 = value.1 ∧
      s.ReadsBack types field.2 value.2 ∧
        ∃ j, field? value.1 found = some j ∧ Alike (s.write value.2) j) declared fields)
    {inner : Option Nat} (fields' : List (String × Datum)) :
    ReadsFields (s.read types inner) found declared fields' ↔
      fields' = fields ∧ ∀ field ∈ fields, Within inner (s.write field.2) := by
  -- induction on the declared fields, each looked up by its name
  induction h generalizing fields' with
  | nil =>
    constructor
    · rintro ⟨⟩
      exact ⟨rfl, by simp⟩
    · rintro ⟨rfl, -⟩
      exact .nil
  | @cons field value declared fields hfield _ ih =>
    obtain ⟨name, schema⟩ := field
    obtain ⟨_, d⟩ := value
    obtain ⟨rfl, hback, j, hlookup, halike⟩ := hfield
    rw [List.forall_mem_cons]
    constructor
    · intro hreads
      cases hreads with
      | cons hlookup' hread hreads =>
        cases hlookup.symm.trans hlookup'
        obtain ⟨rfl, hwithin⟩ := (hback _ _ _ halike).mp hread
        obtain ⟨rfl, hwithin'⟩ := (ih _).mp hreads
        exact ⟨rfl, hwithin, hwithin'⟩
    · rintro ⟨rfl, hwithin, hwithin'⟩
      exact .cons hlookup ((hback _ _ _ halike).mpr ⟨rfl, hwithin⟩)
        ((ih _).mpr ⟨rfl, hwithin'⟩)

/-- A field of a record is found in what is written for the record. -/
theorem field?_write {fields : List (String × Datum)} (hnames : (fields.map Prod.fst).Nodup)
    {name : String} {d : Datum} (hmem : (name, d) ∈ fields) :
    field? name (fields.map fun field => (field.1, s.write field.2)) = some (s.write d) := by
  induction fields with
  | nil => cases hmem
  | cons field fields ih =>
    rw [List.map_cons, List.nodup_cons] at hnames
    rw [List.map_cons, field?]
    rcases List.mem_cons.mp hmem with rfl | hmem
    · exact if_pos rfl
    · -- the name is taken by another field, which would be a second one of its name
      have hne : field.1 ≠ name := by
        rintro rfl
        exact hnames.1 (List.mem_map.mpr ⟨_, hmem, rfl⟩)
      rw [if_neg hne, ih hnames.2 hmem]

/-- A record is read back if its fields are, and no two have the same name. -/
theorem readsBack_record (h : s.Documented) {name : String} {declared : List (String × Schema)}
    (htypes : types name = some (.record declared)) (hnames : (declared.map Prod.fst).Nodup)
    {fields : List (String × Datum)}
    (hfields : List.Forall₂ (fun field value => field.1 = value.1 ∧
      s.ReadsBack types field.2 value.2) declared fields) :
    s.ReadsBack types (.named name) (.record fields) := by
  -- the declared names are the names that were written
  have hsame : declared.map Prod.fst = fields.map Prod.fst := by
    rw [← List.forall₂_eq_eq_eq, List.forall₂_map_left_iff, List.forall₂_map_right_iff]
    exact hfields.imp fun _ _ hfield => hfield.1
  intro limit j d' halike
  rw [h.write_record] at halike ⊢
  cases halike with
  | @object _ found halike =>
    have hwritten : (fields.map fun field => (field.1, s.write field.2)).map Prod.fst =
        fields.map Prod.fst := by
      rw [List.map_map]
      rfl
    have hperm := halike.perm_keys
    rw [hwritten] at hperm
    have hfound : ∀ field ∈ declared, field.1 ∈ found.map Prod.fst := by
      intro field hfield
      rw [← hperm.mem_iff, ← hsame]
      exact List.mem_map_of_mem hfield
    -- each field that was written is found again, wherever it stands
    have hlookup : ∀ value ∈ fields,
        ∃ j, field? value.1 found = some j ∧ Alike (s.write value.2) j := by
      intro value hvalue
      have hone := field?_write (s := s) (hsame ▸ hnames) (d := value.2) hvalue
      exact halike.field? (hwritten.symm ▸ hsame ▸ hnames) value.1 hone
    have hall : List.Forall₂ (fun field value => field.1 = value.1 ∧
        s.ReadsBack types field.2 value.2 ∧
          ∃ j, field? value.1 found = some j ∧ Alike (s.write value.2) j) declared fields := by
      have hboth := (List.forall₂_and_left _ _).mpr ⟨hlookup, hfields.flip⟩
      exact hboth.flip.imp fun _ _ h => ⟨h.2.1, h.2.2, h.1⟩
    -- the levels of an object are those of its values
    have hwithin_iff : ∀ inner, (∀ field ∈ fields.map fun field => (field.1, s.write field.2),
        Within inner field.2) ↔ ∀ field ∈ fields, Within inner (s.write field.2) := by
      intro inner
      exact List.forall_mem_map
    rw [h.read_record types limit name declared found d' htypes
      (hperm.nodup_iff.mp (hsame ▸ hnames)) hfound, within_object_iff]
    simp only [hwithin_iff, readsFields_iff hall]
    constructor
    · rintro ⟨inner, fields', hinner, rfl, rfl, hwithin⟩
      exact ⟨rfl, inner, hinner, hwithin⟩
    · rintro ⟨rfl, inner, hinner, hwithin⟩
      exact ⟨inner, fields, hinner, rfl, rfl, hwithin⟩

/-! ## Variants -/

/-- A variant is read back if its component is. -/
theorem readsBack_component (h : s.Documented) {name tag : String}
    {variants : List (String × List Schema)} {schema : Schema} {d : Datum}
    (htypes : types name = some (.choice variants))
    (hvariant : variants.lookup tag = some [schema]) (hd : s.ReadsBack types schema d) :
    s.ReadsBack types (.named name) (.variant tag [d]) := by
  intro limit j d' halike
  rw [h.write_component] at halike ⊢
  cases halike with
  | object halike =>
    -- an object with the one field that names the variant
    obtain ⟨j, rfl, hcontent⟩ := halike.of_singleton
    rw [h.read_component types limit name variants tag schema j d' htypes hvariant,
      within_object_iff]
    constructor
    · rintro ⟨inner, component, hinner, rfl, hread⟩
      obtain ⟨rfl, hwithin⟩ := (hd _ _ _ hcontent).mp hread
      exact ⟨rfl, inner, hinner, by simpa using hwithin⟩
    · rintro ⟨rfl, inner, hinner, hwithin⟩
      have hwithin : Within inner (s.write d) := by simpa using hwithin
      exact ⟨inner, d, hinner, rfl, (hd _ _ _ hcontent).mpr ⟨rfl, hwithin⟩⟩

/-- A variant is read back if its several components are. -/
theorem readsBack_components (h : s.Documented) {name tag : String}
    {variants : List (String × List Schema)} {schemas : List Schema} {ds : List Datum}
    (htypes : types name = some (.choice variants))
    (hvariant : variants.lookup tag = some schemas) (hlength : 2 ≤ ds.length)
    (hds : List.Forall₂ (s.ReadsBack types) schemas ds) :
    s.ReadsBack types (.named name) (.variant tag ds) := by
  intro limit j d' halike
  rw [h.write_components tag ds hlength] at halike ⊢
  cases halike with
  | object halike =>
    -- an object with one field, whose value is an array of the components
    obtain ⟨_, rfl, hcontent⟩ := halike.of_singleton
    cases hcontent with
    | @array _ js hitems =>
      rw [h.read_components types limit name variants tag schemas js d' htypes hvariant
        (hds.length_eq ▸ hlength), within_object_iff]
      simp only [List.forall_mem_singleton, within_array_iff, readsEach_iff hds hitems]
      constructor
      · rintro ⟨inner, inner', ds', hinner, hinner', rfl, rfl, hwithin⟩
        exact ⟨rfl, inner, hinner, inner', hinner', hwithin⟩
      · rintro ⟨rfl, inner, hinner, inner', hinner', hwithin⟩
        exact ⟨inner, inner', ds, hinner, hinner', rfl, rfl, hwithin⟩

end Documented

end Symbolic.Serialization
