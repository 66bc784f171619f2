import Symbolic.Token.Escape

/-! # Quoted text

Text between double quotes. A backslash escapes quotes, backslashes and control characters,
and starts the escapes of named and numbered characters; before any other character it stands
for itself. Text that is not closed is a fault from its opening quote to the end of the
text. -/

namespace Symbolic.Quoted

/-- What a backslash and the character after it stand for. -/
def afterBackslash : Char → List Char
  | 'n' => ['\n']
  | 't' => ['\t']
  | 'r' => ['\r']
  | 'b' => ['\x08']
  | 'f' => ['\x0c']
  | '"' => ['"']
  | '\\' => ['\\']
  | c => ['\\', c]

/-- The characters that the source at a place stands for, and the place after that source.
    The quotes were opened at `start`. -/
def piece (start : Nat) (c : Cursor) : Except ScanError (List Char × Cursor) :=
  match c.rest with
  | '\\' :: rest =>
    match rest with
    | [] => .error (.between start (c.after c.rest []).offset .unclosedString)
    | mark :: rest =>
      if mark = '[' ∨ mark = ':' then
        match Escape.read c with
        | .ok escape => .ok ([escape.char], escape.next c)
        | .error e => .error e
      else .ok (afterBackslash mark, c.after ['\\', mark] rest)
  | char :: rest => .ok ([char], c.after [char] rest)
  | [] => .error (.between start c.offset .unclosedString)

theorem precedes_of_piece {start : Nat} {c d : Cursor} {text : List Char}
    (h : piece start c = .ok (text, d)) : c.Precedes d := by
  unfold piece at h
  split at h
  · rename_i rest hrest
    split at h
    · cases h
    · split at h
      · split at h
        · rename_i escape hread
          cases h
          -- a backslash takes an escape with it, or the one character behind it
          exact Escape.precedes_next hread
        · cases h
      · cases h
        exact Cursor.precedes_after (by simp [hrest]) (by simp)
  · rename_i char rest hrest
    cases h
    exact Cursor.precedes_after (by simpa using hrest) (by simp)
  · cases h

/-- Reads on to the closing quote: the text before it, and the place after it. -/
def body (start : Nat) (c : Cursor) : Except ScanError (List Char × Cursor) :=
  match c.rest with
  | '"' :: rest => .ok ([], c.after ['"'] rest)
  | _ =>
    match _h : piece start c with
    | .error e => .error e
    | .ok (text, next) =>
      match body start next with
      | .error e => .error e
      | .ok (more, after) => .ok (text ++ more, after)
termination_by c.rest.length
decreasing_by exact (precedes_of_piece _h).length_lt

theorem precedes_of_body {start : Nat} {c d : Cursor} {text : List Char}
    (h : body start c = .ok (text, d)) : c.Precedes d := by
  fun_induction body start c generalizing text d with
  | case1 c rest hrest =>
    cases h
    exact Cursor.precedes_after (by simp [hrest]) (by simp)
  | case2 => cases h
  | case3 => cases h
  | case4 _ _ _ hpiece _ _ hbody _ ih =>
    cases h
    exact (precedes_of_piece hpiece).trans_reaches (ih hbody).reaches

/-- Reads quoted text at its opening quote. -/
def read (c : Cursor) : Except ScanError (List Char × Cursor) :=
  body c.offset (c.after ['"'] c.rest.tail)

theorem precedes_of_read {c d : Cursor} {text rest : List Char} (hc : c.rest = '"' :: rest)
    (h : read c = .ok (text, d)) : c.Precedes d :=
  (Cursor.precedes_after (by simp [hc]) (by simp)).trans_reaches (precedes_of_body h).reaches

end Symbolic.Quoted
