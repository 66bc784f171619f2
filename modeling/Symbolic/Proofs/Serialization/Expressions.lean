import Symbolic.Proofs.Serialization.Plain

/-!
# Expressions survive serialization

An expression is put together from the values of its declaration, so it is read back from its JSON
because each of them is. How many levels nest in that JSON depends on the expression alone: a leaf
takes three of them, and a node two more than its head or three more than a child. A reader that is
held to fewer levels refuses the expression, and does not read another one in its place.

## Key results

- `Documented.readsBack_expr`: an expression is read back as a value of its type
- `Documented.levels_writeExpr`: how many levels nest in the JSON of an expression
- `Documented.readExpr_writeExpr_and_alike_iff`: reading inverts writing, and writing keeps
  expressions apart
-/

namespace Symbolic

namespace Expr

/-! ## Expressions among values -/

/-- The two offsets give the location back. -/
theorem ofDatum?_datum_location (loc : Location) : Location.ofDatum? loc.datum = some loc :=
  rfl

/-- The parts of a number give the number back, whether it has a precision or not. -/
theorem ofDatum?_datum_number (n : Number) : Number.ofDatum? n.datum = some n := by
  obtain ⟨digits, negative, base, precision, exponent⟩ := n
  cases precision <;> rfl

mutual

/-- An expression is the one that its value stands for. -/
theorem ofDatum?_datum : ∀ e : Expr, ofDatum? e.datum = some e
  | .symbol name loc => by
    rw [datum, ofDatum?, ofDatum?_datum_location, Option.map_some]
  | .number value loc => by
    rw [datum, ofDatum?, ofDatum?_datum_number, ofDatum?_datum_location]
    rfl
  | .string value loc => by
    rw [datum, ofDatum?, ofDatum?_datum_location, Option.map_some]
  | .node head children parenthesized loc => by
    rw [datum, ofDatum?, ofDatum?_datum head, ofAllData?_allData children, ofDatum?_datum_location]
    rfl

/-- Expressions are those that their values stand for. -/
theorem ofAllData?_allData : ∀ es : List Expr, ofAllData? (allData es) = some es
  | [] => by rw [allData, ofAllData?]
  | e :: es => by
    rw [allData, ofAllData?, ofDatum?_datum e, ofAllData?_allData es]
    rfl

end

/-! ## How deep the JSON of an expression nests -/

mutual

/-- How many arrays and objects nest in the JSON of an expression. In that of a leaf there are the
    object for the variant, the array of its components, and the location. In that of a node there
    are an object for the variant and one for its fields, and the array of its children. -/
def jsonLevels : Expr → Nat
  | .symbol _ _ | .number _ _ | .string _ _ => 3
  | .node head children _ _ => max head.jsonLevels (jsonLevelsOfAll children + 1) + 2

/-- How many arrays and objects nest in the JSON of any of the expressions. -/
def jsonLevelsOfAll : List Expr → Nat
  | [] => 0
  | e :: es => max e.jsonLevels (jsonLevelsOfAll es)

end

/-- There are three levels at least. -/
theorem three_le_jsonLevels : ∀ e : Expr, 3 ≤ e.jsonLevels
  | .symbol _ _ | .number _ _ | .string _ _ => by simp [jsonLevels]
  | .node head _ _ _ => by
    have := three_le_jsonLevels head
    rw [jsonLevels]
    omega

end Expr

namespace Serialization.Documented

open Json

variable {s : Serialization}

/-! ## Parts of an expression -/

/-- A location is read back from its two offsets. -/
theorem readsBack_location (h : s.Documented) (loc : Location) :
    s.ReadsBack Expr.declarations (.named "Location") loc.datum :=
  h.readsBack_record rfl (by decide)
    (.cons ⟨rfl, h.readsBack_word _⟩ (.cons ⟨rfl, h.readsBack_word _⟩ .nil))

/-- The precision of a number is read back: it is a text, and so not written as null. -/
theorem readsBack_precision (h : s.Documented) (precision : Option String) :
    s.ReadsBack Expr.declarations (.optional .text)
      (precision.elim .absent fun precision => .present (.text precision)) := by
  cases precision with
  | none => exact h.readsBack_absent .text
  | some precision =>
    exact h.readsBack_present (h.readsBack_text precision) (by rw [h.write_text]; simp)

/-- A number is read back from its five parts. -/
theorem readsBack_number (h : s.Documented) (n : Number) :
    s.ReadsBack Expr.declarations (.named "Number") n.datum :=
  h.readsBack_record rfl (by decide)
    (.cons ⟨rfl, h.readsBack_text _⟩ (.cons ⟨rfl, h.readsBack_bool _⟩
      (.cons ⟨rfl, h.readsBack_word _⟩ (.cons ⟨rfl, h.readsBack_precision _⟩
        (.cons ⟨rfl, h.readsBack_long _⟩ .nil)))))

/-! ## Expressions -/

mutual

/-- An expression is read back as a value of its type. -/
theorem readsBack_expr (h : s.Documented) :
    ∀ e : Expr, s.ReadsBack Expr.declarations (.named "Expr") e.datum
  | .symbol name loc => by
    rw [Expr.datum]
    exact h.readsBack_components rfl rfl (Nat.le_refl 2)
      (.cons (h.readsBack_text name) (.cons (h.readsBack_location loc) .nil))
  | .number value loc => by
    rw [Expr.datum]
    exact h.readsBack_components rfl rfl (Nat.le_refl 2)
      (.cons (h.readsBack_number value) (.cons (h.readsBack_location loc) .nil))
  | .string value loc => by
    rw [Expr.datum]
    exact h.readsBack_components rfl rfl (Nat.le_refl 2)
      (.cons (h.readsBack_text value) (.cons (h.readsBack_location loc) .nil))
  | .node head children parenthesized loc => by
    -- a node is a record of its parts, which are read back by recursion
    have hhead := readsBack_expr h head
    have hchildren := h.readsBack_list (readsBack_all h children)
    rw [Expr.datum]
    refine h.readsBack_component rfl rfl (h.readsBack_record rfl (by decide) ?_)
    exact .cons ⟨rfl, hhead⟩ (.cons ⟨rfl, hchildren⟩
      (.cons ⟨rfl, h.readsBack_bool parenthesized⟩ (.cons ⟨rfl, h.readsBack_location loc⟩ .nil)))

/-- The children of a node are read back. -/
theorem readsBack_all (h : s.Documented) :
    ∀ es : List Expr, ∀ d ∈ Expr.allData es, s.ReadsBack Expr.declarations (.named "Expr") d
  | [] => by simp [Expr.allData]
  | e :: es => by
    rw [Expr.allData, List.forall_mem_cons]
    exact ⟨readsBack_expr h e, readsBack_all h es⟩

end

/-- A location takes one level. -/
theorem levels_write_location (h : s.Documented) (loc : Location) :
    (s.write loc.datum).levels = 1 := by
  simp [Location.datum, h.write_record, h.write_word, integer, levels, levelsOfFields]

/-- A number takes one level. -/
theorem levels_write_number (h : s.Documented) (n : Number) : (s.write n.datum).levels = 1 := by
  obtain ⟨digits, negative, base, precision, exponent⟩ := n
  cases precision <;>
    simp [Number.datum, h.write_record, h.write_word, h.write_text, h.write_bool, h.write_long,
      h.write_absent, h.write_present, integer, levels, levelsOfFields]

/-- A leaf takes three levels, if its value takes none or one. -/
theorem levels_write_leaf (h : s.Documented) (tag : String) {d : Datum} (loc : Location)
    (hd : (s.write d).levels ≤ 1) : (s.write (.variant tag [d, loc.datum])).levels = 3 := by
  rw [h.write_components tag [d, loc.datum] (Nat.le_refl 2)]
  simp only [List.map_cons, List.map_nil, levels, levelsOfFields, levelsOfItems,
    h.levels_write_location]
  omega

mutual

/-- The levels that nest in the JSON of an expression depend on the expression alone. -/
theorem levels_writeExpr (h : s.Documented) : ∀ e : Expr, (s.writeExpr e).levels = e.jsonLevels
  | .symbol name loc => by
    rw [writeExpr, Expr.datum, Expr.jsonLevels]
    exact h.levels_write_leaf "Symbol" loc (by rw [h.write_text]; exact Nat.zero_le 1)
  | .number value loc => by
    rw [writeExpr, Expr.datum, Expr.jsonLevels]
    exact h.levels_write_leaf "Number" loc (Nat.le_of_eq (h.levels_write_number value))
  | .string value loc => by
    rw [writeExpr, Expr.datum, Expr.jsonLevels]
    exact h.levels_write_leaf "String" loc (by rw [h.write_text]; exact Nat.zero_le 1)
  | .node head children parenthesized loc => by
    -- a node: the levels of the parts by recursion, and those of the record around them
    have hhead := levels_writeExpr h head
    have hchildren := levelsOfItems_writeAll h children
    have hthree := Expr.three_le_jsonLevels head
    rw [writeExpr] at hhead
    rw [writeExpr, Expr.datum, Expr.jsonLevels, h.write_component, h.write_record]
    simp only [List.map_cons, List.map_nil, levels, levelsOfFields, hhead, h.write_list, hchildren,
      h.write_bool, h.levels_write_location]
    omega

/-- So it is for the children of a node. -/
theorem levelsOfItems_writeAll (h : s.Documented) : ∀ es : List Expr,
    levelsOfItems ((Expr.allData es).map s.write) = Expr.jsonLevelsOfAll es
  | [] => by rw [Expr.allData, Expr.jsonLevelsOfAll]; rfl
  | e :: es => by
    have he := levels_writeExpr h e
    rw [writeExpr] at he
    rw [Expr.allData, List.map_cons, levelsOfItems, Expr.jsonLevelsOfAll, he,
      levelsOfItems_writeAll h es]

end

/-- What is read from the JSON of an expression is that expression and no other, however the fields
    are ordered, and it is read just if the reader goes down as many levels as there are. -/
theorem readExpr_eq_some_iff (h : s.Documented) {e e' : Expr} {limit : Option Nat} {j : Json}
    (halike : Alike (s.writeExpr e) j) :
    s.readExpr limit j = some e' ↔ e' = e ∧ ∀ n ∈ limit, e.jsonLevels ≤ n := by
  rw [readExpr, Option.bind_eq_some_iff]
  simp only [h.readsBack_expr e limit j _ halike]
  -- the document is within the limit when the tree is
  have hwithin : Within limit (s.write e.datum) ↔ ∀ n ∈ limit, e.jsonLevels ≤ n := by
    rw [← h.levels_writeExpr e]
    rfl
  constructor
  · rintro ⟨_, ⟨rfl, hlimit⟩, he'⟩
    rw [Expr.ofDatum?_datum, Option.some.injEq] at he'
    exact ⟨he'.symm, hwithin.mp hlimit⟩
  · rintro ⟨rfl, hlimit⟩
    exact ⟨_, ⟨rfl, hwithin.mpr hlimit⟩, Expr.ofDatum?_datum _⟩

/-- A reader without a limit reads every expression back from its JSON, whatever the order of the
    fields has become; a reader that goes down some number of levels reads back those in which no
    more nest, and nothing in place of the others; and two expressions whose JSON differs in no
    more than the order of fields are the same, with all their locations, flags and numbers. -/
theorem readExpr_writeExpr_and_alike_iff (h : s.Documented) (e : Expr) :
    (∀ j, Alike (s.writeExpr e) j → s.readExpr none j = some e) ∧
    (∀ n j, Alike (s.writeExpr e) j →
      s.readExpr (some n) j = if e.jsonLevels ≤ n then some e else none) ∧
    ∀ e' : Expr, Alike (s.writeExpr e) (s.writeExpr e') ↔ e = e' := by
  have hnone : ∀ (e : Expr) j, Alike (s.writeExpr e) j → s.readExpr none j = some e :=
    fun e j halike => (h.readExpr_eq_some_iff halike).mpr ⟨rfl, by simp⟩
  refine ⟨hnone e, fun n j halike => ?_, fun e' => ⟨fun halike => ?_, ?_⟩⟩
  · split
    · rename_i hle
      exact (h.readExpr_eq_some_iff halike).mpr ⟨rfl, by simpa using hle⟩
    · rename_i hlt
      refine Option.eq_none_iff_forall_ne_some.mpr fun e' he' => hlt ?_
      exact ((h.readExpr_eq_some_iff halike).mp he').2 n rfl
  · -- the JSON of the second is read as the first, and as the second
    have hfirst := hnone e _ halike
    have hsecond := hnone e' _ (Alike.refl _)
    exact Option.some.inj (hfirst.symm.trans hsecond)
  · rintro rfl
    exact Alike.refl _

/-- A power whose exponent is a number with every part, in plain JSON: six levels nest in it. -/
theorem plain_readExpr_writeExpr_power :
    let exponent : Number := ⟨"10", true, 2, some "3", -9223372036854775808⟩
    let power : Expr :=
      .node (.symbol "Power" ⟨0, 12⟩) [.symbol "x" ⟨0, 1⟩, .number exponent ⟨2, 12⟩] true ⟨0, 12⟩
    plain.Documented ∧ plain.readExpr none (plain.writeExpr power) = some power ∧
      plain.readExpr (some 6) (plain.writeExpr power) = some power ∧
      plain.readExpr (some 5) (plain.writeExpr power) = none := by
  intro exponent power
  obtain ⟨hnone, hlimit, -⟩ := readExpr_writeExpr_and_alike_iff plain_documented power
  exact ⟨plain_documented, hnone _ (Alike.refl _),
    (hlimit 6 _ (Alike.refl _)).trans (if_pos (by decide)),
    (hlimit 5 _ (Alike.refl _)).trans (if_neg (by decide))⟩

end Serialization.Documented

end Symbolic
