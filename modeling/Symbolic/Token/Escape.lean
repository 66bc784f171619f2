import Symbolic.Character.Named
import Symbolic.Error
import Symbolic.Text.Digits
import Symbolic.Text.Split
import Symbolic.Token.Cursor

/-! # Escapes

A backslash escapes a character: `\[Name]` by its name, `\:hhhh` by four hexadecimal digits.
An escape is read only where it starts, at a backslash. -/

namespace Symbolic

/-- A character written by an escape, and what follows the escape. -/
structure Escape where
  char : Char
  source : List Char
  rest : List Char

namespace Escape

/-- The character of a code point, unless that is a surrogate or too large. -/
def ofCodePoint? (n : Nat) : Option Char :=
  if n.isValidChar then some (.ofNat n) else none

/-- The character that exactly four hexadecimal digits stand for. -/
def ofHexadecimal? (digits : List Char) : Option Char :=
  if digits.length = 4 then (Text.digitsValue? 16 digits).bind ofCodePoint? else none

/-- Whether a text has the form of a character name. -/
def isName (name : List Char) : Bool :=
  !name.isEmpty && name.all Char.isAlphanum

/-- Reads the escape at a backslash. -/
def read (c : Cursor) : Except ScanError Escape :=
  match c.rest with
  | '\\' :: '[' :: body =>
    match Text.splitOnce? [']'] body with
    | some (name, rest) =>
      let source := '\\' :: '[' :: (name ++ [']'])
      if isName name then
        match Character.ofName? (.ofList name) with
        | some char => .ok ⟨char, source, rest⟩
        | none => .error (.between c.offset (c.after source rest).offset .unknownNamedCharacter)
      else .error (.between c.offset (c.offset + 2) .invalidEscape)
    | none => .error (.between c.offset (c.offset + 2) .invalidEscape)
  | '\\' :: ':' :: body =>
    match ofHexadecimal? (body.take 4) with
    | some char => .ok ⟨char, '\\' :: ':' :: body.take 4, body.drop 4⟩
    | none => .error (.between c.offset (c.offset + 2) .invalidEscape)
  | cs => .error (.between c.offset (c.after (cs.take 2) []).offset .invalidEscape)

/-- The place after an escape at `c`. -/
def next (e : Escape) (c : Cursor) : Cursor :=
  c.after e.source e.rest

theorem source_append_rest_of_read {c : Cursor} {e : Escape} (h : read c = .ok e) :
    c.rest = e.source ++ e.rest ∧ e.source ≠ [] := by
  unfold read at h
  split at h
  · rename_i body hrest
    split at h
    · -- a name between the brackets, which has to be known
      rename_i name rest hsplit
      simp only at h
      split at h
      · split at h
        · cases h
          simp [hrest, Text.eq_of_splitOnce? hsplit]
        · cases h
      · cases h
    · cases h
  · -- a number of digits behind a colon
    rename_i body hrest
    split at h
    · cases h
      simp [hrest]
    · cases h
  · cases h

theorem two_le_length_source {c : Cursor} {e : Escape} (h : read c = .ok e) :
    2 ≤ e.source.length := by
  unfold read at h
  split at h
  · split at h
    · simp only at h
      split at h
      · split at h
        · cases h
          simp
        · cases h
      · cases h
    · cases h
  · split at h
    · cases h
      simp
    · cases h
  · cases h

theorem precedes_next {c : Cursor} {e : Escape} (h : read c = .ok e) : c.Precedes (e.next c) :=
  have ⟨hrest, hne⟩ := source_append_rest_of_read h
  Cursor.precedes_after hrest hne

end Escape

end Symbolic
