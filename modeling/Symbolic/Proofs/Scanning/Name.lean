import Symbolic.Proofs.Scanning.Boundary
import Symbolic.Token.Name

/-!
# Names in a full form

A name never has more characters than its source, and has fewer if there is an escape in it. So a
name that is its own source is written plainly, and it is read in the same way wherever a full form
puts it.

## Key results

- `length_readFrom_le`: a name is no longer than its source
- `readFrom_append`: a plain name is read up to a boundary
-/

namespace Symbolic

/-! ## Glyphs -/

namespace Glyph

theorem at?_cons {c : Char} (hc : c ≠ '\\') (offset : Nat) (cs : List Char) :
    at? ⟨offset, c :: cs⟩ = some ⟨c, false, ⟨offset + c.utf8Size, cs⟩⟩ := by
  unfold at?
  split
  · rename_i heq
    cases heq
  · rename_i heq
    exact absurd (List.cons.inj heq).1 hc
  · rename_i heq
    obtain ⟨rfl, rfl⟩ := List.cons.inj heq
    rfl

/-- An escape takes at least two characters for the one that it stands for. -/
theorem length_next_le {c : Cursor} {g : Glyph} (h : at? c = some g) :
    g.next.rest.length + (if g.escaped then 2 else 1) ≤ c.rest.length := by
  unfold at? at h
  split at h
  · cases h
  · split at h
    · -- an escape, of at least a backslash and one character more
      rename_i escape hread
      cases h
      have hsource := Escape.two_le_length_source hread
      have hrest := (Escape.source_append_rest_of_read hread).1
      simp only [hrest, List.length_append, if_true, Escape.next, Cursor.after]
      omega
    · cases h
  · rename_i char rest hrest
    cases h
    simp [hrest, Cursor.after]

theorem escaped_of_at?_backslash {offset : Nat} {cs : List Char} {g : Glyph}
    (h : at? ⟨offset, '\\' :: cs⟩ = some g) : g.escaped = true := by
  simp only [at?] at h
  split at h
  · cases h
    rfl
  · cases h

theorem startsName_boundary : ∀ c ∈ Scan.boundaries, Character.startsName c = false := by
  have hall : Scan.boundaries.any Character.startsName = false := by
    decide +kernel
  simpa using hall

theorem continuesName_boundary : ∀ c ∈ Scan.boundaries, Character.continuesName c = false := by
  have hall : Scan.boundaries.any Character.continuesName = false := by
    decide +kernel
  simpa using hall

/-- Whether a plain character belongs to a name does not depend on what follows a boundary. -/
theorem belongs_append {tail : List Char} (htail : Scan.AtBoundary tail) (first : Bool) (c : Char)
    (cs : List Char) (offset offset' : Nat) :
    (Glyph.mk c false ⟨offset, cs ++ tail⟩).belongs first =
      (Glyph.mk c false ⟨offset', cs⟩).belongs first := by
  -- the context mark looks at the next character, and no boundary starts a name
  have hhead : (cs ++ tail).head?.any Character.startsName =
      cs.head?.any Character.startsName := by
    cases cs with
    | nil => exact htail.any_eq_false startsName_boundary
    | cons => rfl
  simp only [belongs, marksContext, hhead]

end Glyph

/-! ## Names -/

namespace Name

theorem readFrom_of_belongs {first : Bool} {c : Cursor} {g : Glyph} (hat : Glyph.at? c = some g)
    (h : g.belongs first = true) :
    readFrom first c = (g.char :: (readFrom false g.next).1, (readFrom false g.next).2) := by
  rw [readFrom]
  split
  · rename_i hnone
    simp [hat] at hnone
  · rename_i g' hsome
    obtain rfl : g = g' := by simpa [hat] using hsome
    rw [if_pos h]

theorem readFrom_of_not_any {first : Bool} {c : Cursor}
    (h : (Glyph.at? c).any (·.belongs first) = false) : readFrom first c = ([], c) := by
  rw [readFrom]
  split
  · rfl
  · rename_i g hsome
    have hg : ¬g.belongs first = true := by simpa [hsome] using h
    rw [if_neg hg]

/-- A text that no name goes on with. -/
def EndsName (tail : List Char) : Prop :=
  ∀ c ∈ tail.head?, c ≠ '\\' ∧ c ≠ '\u0060' ∧ Character.startsName c = false ∧
    Character.continuesName c = false

/-- A boundary is neither an escape, nor a context mark, nor part of a name. -/
theorem endsName_of_atBoundary {tail : List Char} (h : Scan.AtBoundary tail) : EndsName tail := by
  intro c hc
  exact ⟨h.ne hc (by decide), h.ne hc (by decide), Glyph.startsName_boundary c (h c hc),
    Glyph.continuesName_boundary c (h c hc)⟩

theorem readFrom_of_endsName {tail : List Char} (h : EndsName tail) (first : Bool) (offset : Nat) :
    readFrom first ⟨offset, tail⟩ = ([], ⟨offset, tail⟩) := by
  refine readFrom_of_not_any ?_
  cases tail with
  | nil => rfl
  | cons c rest =>
    obtain ⟨hescape, hcontext, hstarts, hcontinues⟩ := h c rfl
    rw [Glyph.at?_cons hescape, Option.any_some]
    cases first <;> simp [Glyph.belongs, Glyph.marksContext, hcontext, hstarts, hcontinues]

/-- A name is no longer than its source. -/
theorem length_readFrom_le (first : Bool) (c : Cursor) :
    (readFrom first c).1.length + (readFrom first c).2.rest.length ≤ c.rest.length := by
  fun_induction readFrom first c with
  | case1 => simp
  | case2 first c g hat _ name next hread ih =>
    have hglyph := Glyph.length_next_le hat
    rw [hread] at ih
    simp only [List.length_cons] at ih ⊢
    split at hglyph <;> omega
  | case3 => simp

/-- A name that is its own source starts with a plain character. -/
theorem glyph_of_readFrom {first : Bool} {offset : Nat} {c : Char} {cs : List Char}
    (h : (readFrom first ⟨offset, c :: cs⟩).1 = c :: cs) :
    c ≠ '\\' ∧ (Glyph.mk c false ⟨offset + c.utf8Size, cs⟩).belongs first = true ∧
      (readFrom false ⟨offset + c.utf8Size, cs⟩).1 = cs := by
  cases hat : Glyph.at? ⟨offset, c :: cs⟩ with
  | none => simp [readFrom_of_not_any, hat] at h
  | some g =>
    by_cases hbelongs : g.belongs first = true
    · rw [readFrom_of_belongs hat hbelongs] at h
      obtain ⟨hchar, hname⟩ := List.cons.inj h
      -- an escape would have taken too many characters
      have hescape : c ≠ '\\' := by
        rintro rfl
        have hglyph := Glyph.length_next_le hat
        have hlength := length_readFrom_le false g.next
        rw [Glyph.escaped_of_at?_backslash hat, if_pos rfl] at hglyph
        rw [hname] at hlength
        simp only [List.length_cons] at hglyph
        omega
      rw [Glyph.at?_cons hescape] at hat
      obtain rfl := Option.some.inj hat
      exact ⟨hescape, hbelongs, hname⟩
    · rw [readFrom_of_not_any (by simp [hat, hbelongs])] at h
      cases h

/-- A name that is its own source is read up to a boundary. -/
theorem readFrom_append {tail : List Char} (htail : Scan.AtBoundary tail) {cs : List Char}
    {first : Bool} {offset : Nat} (h : (readFrom first ⟨offset, cs⟩).1 = cs) (offset' : Nat) :
    readFrom first ⟨offset', cs ++ tail⟩ = (cs, ⟨offset' + Text.byteLength cs, tail⟩) := by
  induction cs generalizing first offset offset' with
  | nil => exact readFrom_of_endsName (endsName_of_atBoundary htail) first offset'
  | cons c cs ih =>
    -- the character is read as before, and the name goes on after it
    obtain ⟨hescape, hbelongs, hname⟩ := glyph_of_readFrom h
    have hbelongs' := Glyph.belongs_append htail first c cs (offset' + c.utf8Size)
      (offset + c.utf8Size)
    rw [hbelongs] at hbelongs'
    rw [List.cons_append, readFrom_of_belongs (Glyph.at?_cons hescape _ _) hbelongs']
    rw [ih hname (offset' + c.utf8Size), Text.byteLength_cons, Nat.add_assoc]

end Name

end Symbolic
