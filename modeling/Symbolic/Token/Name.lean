import Symbolic.Character.Meaning
import Symbolic.Token.Escape

/-! # Names

A name is a run of characters, each written plainly or by an escape. A backquote separates
the name of a context from what it qualifies, and stands only before a character that can
start a name. -/

namespace Symbolic

/-- A character as it may stand in a name: plain or escaped. -/
structure Glyph where
  char : Char
  escaped : Bool
  next : Cursor

namespace Glyph

/-- The character at a place. A faulty escape is no character. -/
def at? (c : Cursor) : Option Glyph :=
  match c.rest with
  | [] => none
  | '\\' :: _ =>
    match Escape.read c with
    | .ok escape => some ⟨escape.char, true, escape.next c⟩
    | .error _ => none
  | char :: rest => some ⟨char, false, c.after [char] rest⟩

/-- Whether the character is a backquote before a plain character that can start a name. -/
def marksContext (g : Glyph) : Bool :=
  !g.escaped && g.char == '\u0060' && g.next.rest.head?.any Character.startsName

/-- Whether the character can be the first, or a later one, of a name. -/
def belongs (g : Glyph) (first : Bool) : Bool :=
  g.marksContext || if first then Character.startsName g.char else Character.continuesName g.char

theorem precedes_next {c : Cursor} {g : Glyph} (h : at? c = some g) : c.Precedes g.next := by
  unfold at? at h
  split at h
  · cases h
  · split at h
    · rename_i escape hread
      cases h
      exact Escape.precedes_next hread
    · cases h
  · rename_i char rest hrest
    cases h
    exact Cursor.precedes_after (by simpa using hrest) (by simp)

end Glyph

namespace Name

/-- Reads as much of a name as there is at a place: its characters, and the place after it. -/
def readFrom (first : Bool) (c : Cursor) : List Char × Cursor :=
  match _h : Glyph.at? c with
  | none => ([], c)
  | some g =>
    if g.belongs first then
      let (name, next) := readFrom false g.next
      (g.char :: name, next)
    else ([], c)
termination_by c.rest.length
decreasing_by exact (Glyph.precedes_next _h).length_lt

/-- Reads a name from its first character on. -/
def read (c : Cursor) : List Char × Cursor :=
  readFrom true c

/-- Whether a name starts at a place. -/
def startsAt (c : Cursor) : Bool :=
  (Glyph.at? c).any (·.belongs true)

theorem reaches_readFrom (first : Bool) (c : Cursor) : c.Reaches (readFrom first c).2 := by
  fun_induction readFrom first c with
  | case1 => exact .refl _
  | case2 first c g hat _ name next hread ih =>
    exact (Glyph.precedes_next hat).reaches.trans (by simpa [hread] using ih)
  | case3 => exact .refl _

theorem reaches_read (c : Cursor) : c.Reaches (read c).2 :=
  reaches_readFrom true c

theorem precedes_read {c : Cursor} (h : startsAt c = true) : c.Precedes (read c).2 := by
  unfold startsAt at h
  cases hat : Glyph.at? c with
  | none => simp [hat] at h
  | some g =>
    simp only [hat, Option.any_some] at h
    rw [read, readFrom]
    split
    · rename_i hnone
      simp [hat] at hnone
    · rename_i g' hsome
      obtain rfl : g = g' := by simpa [hat] using hsome
      simp only [h, if_true]
      -- the first character is taken, and the rest of the name only goes on from there
      exact (Glyph.precedes_next hat).trans_reaches (reaches_readFrom false g.next)

end Name

end Symbolic
