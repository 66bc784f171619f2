import Symbolic.Text.Utf8

/-! # Places in a text

A cursor is a place in a text: the number of bytes before it, and the characters after it.
Scanning moves a cursor over characters; `Passes` says over which, and the weaker `Reaches`
and `Precedes` that there are such characters, or that there is at least one. -/

namespace Symbolic

/-- A place in a text: the byte offset of the place, and what follows it. -/
structure Cursor where
  offset : Nat
  rest : List Char
deriving DecidableEq, Repr

namespace Cursor

/-- The start of a text. -/
def ofText (text : String) : Cursor :=
  ⟨0, text.toList⟩

/-- The place after `taken`, from which `rest` follows. -/
def after (c : Cursor) (taken rest : List Char) : Cursor :=
  ⟨c.offset + Text.byteLength taken, rest⟩

/-- Moving over `taken` leads from `c` to `d`. -/
def Passes (c : Cursor) (taken : List Char) (d : Cursor) : Prop :=
  c.rest = taken ++ d.rest ∧ d.offset = c.offset + Text.byteLength taken

/-- Some move leads from `c` to `d`. -/
def Reaches (c d : Cursor) : Prop :=
  ∃ taken, c.Passes taken d

/-- A move over at least one character leads from `c` to `d`. -/
def Precedes (c d : Cursor) : Prop :=
  ∃ taken, taken ≠ [] ∧ c.Passes taken d

/-- A cursor passes over what is taken off its text. -/
theorem passes_after {c : Cursor} {taken rest : List Char} (h : c.rest = taken ++ rest) :
    c.Passes taken (c.after taken rest) :=
  ⟨h, rfl⟩

/-- Cursors pass over characters one after the other. -/
theorem Passes.trans {c d e : Cursor} {a b : List Char} (h : c.Passes a d) (h' : d.Passes b e) :
    c.Passes (a ++ b) e := by
  refine ⟨by rw [h.1, h'.1, List.append_assoc], ?_⟩
  rw [h'.2, h.2, Text.byteLength_append, Nat.add_assoc]

/-- A cursor is where it is. -/
theorem Reaches.refl (c : Cursor) : c.Reaches c :=
  ⟨[], by simp [Passes]⟩

theorem Reaches.trans {c d e : Cursor} : c.Reaches d → d.Reaches e → c.Reaches e :=
  fun ⟨_, h⟩ ⟨_, h'⟩ => ⟨_, h.trans h'⟩

/-- Moving over some characters is moving over any. -/
theorem Precedes.reaches {c d : Cursor} : c.Precedes d → c.Reaches d :=
  fun ⟨taken, _, h⟩ => ⟨taken, h⟩

/-- Moving on after some characters is moving over some. -/
theorem Precedes.trans_reaches {c d e : Cursor} : c.Precedes d → d.Reaches e → c.Precedes e :=
  fun ⟨_, hne, h⟩ ⟨_, h'⟩ => ⟨_, by simp [hne], h.trans h'⟩

/-- So is moving over some characters later. -/
theorem Reaches.trans_precedes {c d e : Cursor} : c.Reaches d → d.Precedes e → c.Precedes e :=
  fun ⟨_, h⟩ ⟨_, hne, h'⟩ => ⟨_, by simp [hne], h.trans h'⟩

theorem reaches_after {c : Cursor} {taken rest : List Char} (h : c.rest = taken ++ rest) :
    c.Reaches (c.after taken rest) :=
  ⟨taken, passes_after h⟩

theorem precedes_after {c : Cursor} {taken rest : List Char} (h : c.rest = taken ++ rest)
    (hne : taken ≠ []) : c.Precedes (c.after taken rest) :=
  ⟨taken, hne, passes_after h⟩

/-- Moving on leaves no more of the text. -/
theorem Reaches.length_le {c d : Cursor} : c.Reaches d → d.rest.length ≤ c.rest.length := by
  rintro ⟨taken, h, -⟩
  simp [h]

/-- Moving over some characters leaves less of it. -/
theorem Precedes.length_lt {c d : Cursor} : c.Precedes d → d.rest.length < c.rest.length := by
  rintro ⟨taken, hne, h, -⟩
  have := List.length_pos_iff.mpr hne
  simp only [h, List.length_append]
  omega

end Cursor

end Symbolic
