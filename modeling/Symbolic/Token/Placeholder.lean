import Symbolic.Token.Lexeme
import Symbolic.Token.Name

/-! # Blanks of patterns

A blank is one to three underscores with an optional name before and an optional head after
them, or one underscore with a point, which has no head. The point must not be part of an
operator or a number. -/

namespace Symbolic.Placeholder

/-- Whether a point before the given text belongs to that text. -/
def claimsPoint (cs : List Char) : Bool :=
  cs.head?.any fun c => c == '.' || c.isDigit

/-- The underscores, with the point if it belongs to them, and what follows. -/
def marks : List Char → List Char × List Char
  | '_' :: '.' :: rest => if claimsPoint rest then (['_'], '.' :: rest) else (['_', '.'], rest)
  | '_' :: '_' :: '_' :: rest => (['_', '_', '_'], rest)
  | '_' :: '_' :: rest => (['_', '_'], rest)
  | '_' :: rest => (['_'], rest)
  | rest => ([], rest)

/-- Reads the blank whose underscores start at a place, after its name. -/
def read (name : List Char) (c : Cursor) : Lexeme :=
  let (marks, rest) := marks c.rest
  let place := c.after marks rest
  if marks = ['_', '.'] then ⟨.blank, name ++ marks, place⟩
  else
    let (head, next) := Name.read place
    ⟨.blank, name ++ marks ++ head, next⟩

theorem append_marks (cs : List Char) : (marks cs).1 ++ (marks cs).2 = cs := by
  unfold marks
  split
  · split <;> simp
  all_goals simp

theorem marks_cons_ne_nil (cs : List Char) : (marks ('_' :: cs)).1 ≠ [] := by
  unfold marks
  split
  · split <;> simp
  all_goals simp_all

theorem precedes_read {name : List Char} {c : Cursor} {rest : List Char}
    (hc : c.rest = '_' :: rest) : c.Precedes (read name c).next := by
  have hmarks : c.Precedes (c.after (marks c.rest).1 (marks c.rest).2) :=
    Cursor.precedes_after (append_marks c.rest).symm (by rw [hc]; exact marks_cons_ne_nil rest)
  unfold read
  simp only
  split
  · exact hmarks
  · exact hmarks.trans_reaches (Name.reaches_read _)

end Symbolic.Placeholder
