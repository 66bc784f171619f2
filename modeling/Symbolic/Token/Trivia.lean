import Symbolic.Error
import Symbolic.Text.Blank
import Symbolic.Token.Cursor

/-! # What stands between tokens

Blank characters and comments separate tokens. Comments are written between `(*` and `*)`,
and they nest. A comment that the text does not close is a fault from its start to the end
of the text. -/

namespace Symbolic.Trivia

/-- Moves over blanks and comments from an offset on. As many comments as `depth` says are
    open there, the outermost of them since `start`. -/
def skipFrom (depth start offset : Nat) : List Char → Except ScanError Cursor
  | '(' :: '*' :: rest =>
    skipFrom (depth + 1) (if depth = 0 then offset else start) (offset + 2) rest
  | '*' :: ')' :: rest =>
    match depth with
    | 0 => .ok ⟨offset, '*' :: ')' :: rest⟩
    | depth + 1 => skipFrom depth start (offset + 2) rest
  | c :: rest =>
    if depth = 0 && !Text.isBlank c then .ok ⟨offset, c :: rest⟩
    else skipFrom depth start (offset + c.utf8Size) rest
  | [] =>
    if depth = 0 then .ok ⟨offset, []⟩
    else .error (.between start offset .unclosedComment)

/-- Moves over blanks and comments. -/
def skip (c : Cursor) : Except ScanError Cursor :=
  skipFrom 0 c.offset c.offset c.rest

theorem reaches_of_skipFrom {depth start offset : Nat} {cs : List Char} {d : Cursor}
    (h : skipFrom depth start offset cs = .ok d) : Cursor.Reaches ⟨offset, cs⟩ d := by
  fun_induction skipFrom depth start offset cs with
  | case1 depth start offset rest ih =>
    -- a comment opens, at any depth
    exact .trans ⟨['(', '*'], rfl, rfl⟩ (ih h)
  | case2 start offset rest =>
    cases h
    exact .refl _
  | case3 start offset rest depth ih =>
    -- the innermost comment closes
    exact .trans ⟨['*', ')'], rfl, rfl⟩ (ih h)
  | case4 =>
    cases h
    exact .refl _
  | case5 depth start offset c rest _ _ _ ih =>
    -- a character within a comment, or a blank outside
    exact .trans ⟨[c], rfl, rfl⟩ (ih h)
  | case6 =>
    cases h
    exact .refl _
  | case7 => cases h

theorem reaches_of_skip {c d : Cursor} (h : skip c = .ok d) : c.Reaches d :=
  reaches_of_skipFrom h

end Symbolic.Trivia
