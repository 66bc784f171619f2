import Symbolic.Token.Lexeme

/-! # References to arguments and outputs

A slot is `#` with an optional number or name, a sequence slot `##` with an optional number.
A reference to an earlier output is a run of `%`, or one `%` with a number. -/

namespace Symbolic.Reference

/-- Whether a slot's name can hold the character. -/
def isNameCharacter (c : Char) : Bool :=
  c.isAlphanum || c == '$'

/-- The characters that belong to a slot before the given text: those of a number if it
    starts with a digit, and else those of a name. -/
def slotCharacter (cs : List Char) : Char → Bool :=
  if cs.head?.any Char.isDigit then Char.isDigit else isNameCharacter

/-- The characters that belong to an output reference before the given text. -/
def outCharacter (cs : List Char) : Char → Bool :=
  if cs.head? = some '%' then (· == '%') else Char.isDigit

/-- Reads the slot at a place that starts with `#`. -/
def slot (c : Cursor) : Lexeme :=
  match c.rest.tail with
  | '#' :: rest =>
    .verbatim .slotSequence c ('#' :: '#' :: rest.takeWhile Char.isDigit)
      (rest.dropWhile Char.isDigit)
  | rest =>
    .verbatim .slot c ('#' :: rest.takeWhile (slotCharacter rest))
      (rest.dropWhile (slotCharacter rest))

/-- Reads the output reference at a place that starts with `%`. -/
def out (c : Cursor) : Lexeme :=
  let rest := c.rest.tail
  .verbatim .out c ('%' :: rest.takeWhile (outCharacter rest)) (rest.dropWhile (outCharacter rest))

theorem precedes_slot {c : Cursor} {rest : List Char} (hc : c.rest = '#' :: rest) :
    c.Precedes (slot c).next := by
  unfold slot
  split
  · rename_i tail htail
    rw [hc, List.tail_cons] at htail
    subst htail
    exact Cursor.precedes_after (by simp [hc]) (by simp)
  · exact Cursor.precedes_after (by simp [hc]) (by simp)

theorem precedes_out {c : Cursor} {rest : List Char} (hc : c.rest = '%' :: rest) :
    c.Precedes (out c).next :=
  Cursor.precedes_after (by simp [hc]) (by simp)

end Symbolic.Reference
