import Symbolic.Proofs.Scanning.Boundary

/-!
# Blanks and nested comments

What may stand between tokens, said without a scanner: blank characters and complete comments. In a
comment there are further comments and characters of no meaning, which are all those that do not
start an opening or a closing mark. What is skipped between tokens is just that, and all of it.

## Key results

- `IsTrivia`: blanks and complete, properly nested comments
- `exists_isTrivia_of_skip`: nothing else is skipped
- `skip_append`: whatever stands behind it, all of it is skipped
-/

namespace Symbolic.Scan

open Text Trivia

/-- Whether a text starts with a mark that opens or closes a comment. -/
def startsMark (cs : List Char) : Bool :=
  ['(', '*'].isPrefixOf cs || ['*', ')'].isPrefixOf cs

theorem startsMark_cons {c : Char} {cs : List Char} :
    startsMark (c :: cs) = true ↔
      (c = '(' ∧ ∃ rest, cs = '*' :: rest) ∨ (c = '*' ∧ ∃ rest, cs = ')' :: rest) := by
  cases cs with
  | nil => simp [startsMark]
  | cons d rest => simp [startsMark, @eq_comm _ c, @eq_comm _ d]

theorem utf8Size_marks : '('.utf8Size = 1 ∧ '*'.utf8Size = 1 ∧ ')'.utf8Size = 1 := by
  decide

/-- What stands between the marks of a comment. A character there is followed by the rest of what
    stands there and the closing mark. -/
inductive IsCommentBody : List Char → Prop
  | nil : IsCommentBody []
  | comment {inner body : List Char} (isInner : IsCommentBody inner)
      (isBody : IsCommentBody body) :
      IsCommentBody ('(' :: '*' :: (inner ++ '*' :: ')' :: body))
  | char {c : Char} {body : List Char}
      (noMark : startsMark (c :: (body ++ ['*', ')'])) = false) (isBody : IsCommentBody body) :
      IsCommentBody (c :: body)

/-- Any number of blanks and complete comments. -/
inductive IsTrivia : List Char → Prop
  | nil : IsTrivia []
  | blank {c : Char} {gap : List Char} (isBlank : isBlank c = true) (isGap : IsTrivia gap) :
      IsTrivia (c :: gap)
  | comment {body gap : List Char} (isBody : IsCommentBody body) (isGap : IsTrivia gap) :
      IsTrivia ('(' :: '*' :: (body ++ '*' :: ')' :: gap))

/-- No lexeme goes on where trivia starts. -/
theorem IsTrivia.atBoundary {gap : List Char} (h : IsTrivia gap) (hne : gap ≠ [])
    (cs : List Char) : AtBoundary (gap ++ cs) := by
  cases h with
  | nil => exact absurd rfl hne
  | blank isBlank =>
    exact atBoundary_cons (List.mem_append_right _ (by simpa [Text.isBlank] using isBlank))
  | comment => exact atBoundary_cons (by decide)

/-! ## The steps of skipping -/

section Steps

variable {depth start offset : Nat} {c : Char} {cs rest : List Char}

theorem skipFrom_open :
    skipFrom depth start offset ('(' :: '*' :: rest) =
      skipFrom (depth + 1) (if depth = 0 then offset else start) (offset + 2) rest := by
  rw [skipFrom]

theorem skipFrom_close :
    skipFrom (depth + 1) start offset ('*' :: ')' :: rest) =
      skipFrom depth start (offset + 2) rest := by
  rw [skipFrom]

/-- A character within a comment is passed over, unless a mark starts there. -/
theorem skipFrom_char (h : startsMark (c :: cs) = false) :
    skipFrom (depth + 1) start offset (c :: cs) =
      skipFrom (depth + 1) start (offset + c.utf8Size) cs := by
  rw [skipFrom]
  · rw [if_neg (by simp)]
  · rintro rest rfl rfl
    simp [startsMark] at h
  · rintro rest rfl rfl
    simp [startsMark] at h

theorem skipFrom_blank (h : isBlank c = true) :
    skipFrom 0 start offset (c :: cs) = skipFrom 0 start (offset + c.utf8Size) cs := by
  have hopen : isBlank '(' = false := by decide
  have hclose : isBlank '*' = false := by decide
  rw [skipFrom]
  · rw [h]
    rfl
  · rintro rest rfl -
    simp [hopen] at h
  · rintro rest rfl -
    simp [hclose] at h

end Steps

/-! ## All trivia is skipped -/

theorem skipFrom_commentBody {body : List Char} (h : IsCommentBody body) (depth start offset : Nat)
    (rest : List Char) :
    skipFrom (depth + 1) start offset (body ++ '*' :: ')' :: rest) =
      skipFrom depth start (offset + byteLength body + 2) rest := by
  induction h generalizing depth start offset rest with
  | nil => exact skipFrom_close
  | @comment inner body _ _ ihInner ihBody =>
    calc skipFrom (depth + 1) start offset
          ('(' :: '*' :: (inner ++ '*' :: ')' :: body) ++ '*' :: ')' :: rest)
        = skipFrom (depth + 2) start (offset + 2)
            (inner ++ '*' :: ')' :: (body ++ '*' :: ')' :: rest)) := by
          simp [skipFrom_open]
      _ = skipFrom (depth + 1) start (offset + 2 + byteLength inner + 2)
            (body ++ '*' :: ')' :: rest) := ihInner ..
      _ = skipFrom depth start (offset + 2 + byteLength inner + 2 + byteLength body + 2) rest :=
          ihBody ..
      _ = _ := by
          congr 1
          simp only [byteLength_cons, byteLength_append, utf8Size_marks]
          omega
  | @char c body noMark _ ih =>
    have hnone : startsMark (c :: (body ++ '*' :: ')' :: rest)) = false := by
      -- the character after this one is the same, whatever follows the comment
      cases body <;> exact noMark
    rw [List.cons_append, skipFrom_char hnone, ih, byteLength_cons, Nat.add_assoc offset]

theorem skipFrom_trivia {gap : List Char} (h : IsTrivia gap) (start offset : Nat)
    (cs : List Char) :
    skipFrom 0 start offset (gap ++ cs) = skipFrom 0 start (offset + byteLength gap) cs := by
  -- induction on the blanks and the comments that there are
  induction h generalizing start offset with
  | nil => rfl
  | blank h _ ih =>
    rw [List.cons_append, skipFrom_blank h, ih, byteLength_cons, Nat.add_assoc]
  | @comment body gap h _ ih =>
    calc skipFrom 0 start offset ('(' :: '*' :: (body ++ '*' :: ')' :: gap) ++ cs)
        = skipFrom 1 offset (offset + 2) (body ++ '*' :: ')' :: (gap ++ cs)) := by
          simp [skipFrom_open]
      _ = skipFrom 0 offset (offset + 2 + byteLength body + 2) (gap ++ cs) :=
          skipFrom_commentBody h ..
      _ = skipFrom 0 start (offset + 2 + byteLength body + 2) (gap ++ cs) := skipFrom_zero ..
      _ = skipFrom 0 start (offset + 2 + byteLength body + 2 + byteLength gap) cs := ih ..
      _ = _ := by
          congr 1
          simp only [byteLength_cons, byteLength_append, utf8Size_marks]
          omega

/-- Trivia is skipped, whatever stands behind it. -/
theorem skip_append {gap : List Char} (h : IsTrivia gap) (offset : Nat) (cs : List Char) :
    skip ⟨offset, gap ++ cs⟩ = skip ⟨offset + byteLength gap, cs⟩ :=
  (skipFrom_trivia h offset offset cs).trans (skipFrom_zero ..)

/-! ## Nothing else is skipped -/

/-- What is passed over from within `depth` comments on: the rest of each of them, and trivia. -/
inductive Closes : Nat → List Char → Prop
  | outside {gap : List Char} (isGap : IsTrivia gap) : Closes 0 gap
  | inside {depth : Nat} {body rest : List Char} (isBody : IsCommentBody body)
      (closes : Closes depth rest) : Closes (depth + 1) (body ++ '*' :: ')' :: rest)

theorem Closes.open {depth : Nat} {cs : List Char} (h : Closes (depth + 1) cs) :
    Closes depth ('(' :: '*' :: cs) := by
  cases h with
  | @inside _ inner rest isInner closes =>
    cases closes with
    | outside isGap => exact .outside (.comment isInner isGap)
    | @inside depth body rest isBody closes =>
      have hbody := Closes.inside (IsCommentBody.comment isInner isBody) closes
      simpa using hbody

theorem Closes.char {depth : Nat} {c : Char} {cs : List Char} (h : Closes (depth + 1) cs)
    (noMark : startsMark (c :: cs) = false) : Closes (depth + 1) (c :: cs) := by
  cases h with
  | @inside _ body rest isBody closes =>
    refine Closes.inside (.char ?_ isBody) closes
    cases body <;> exact noMark

theorem exists_closes_of_skipFrom {depth start offset : Nat} {cs : List Char} {d : Cursor}
    (h : skipFrom depth start offset cs = .ok d) :
    ∃ gap, Cursor.Passes ⟨offset, cs⟩ gap d ∧ Closes depth gap := by
  fun_induction skipFrom depth start offset cs with
  | case1 depth start offset rest ih =>
    obtain ⟨gap, hpasses, hcloses⟩ := ih h
    have hmark : Cursor.Passes ⟨offset, '(' :: '*' :: rest⟩ ['(', '*'] ⟨offset + 2, rest⟩ :=
      ⟨rfl, rfl⟩
    exact ⟨_, hmark.trans hpasses, hcloses.open⟩
  | case2 start offset rest =>
    cases h
    exact ⟨[], ⟨rfl, rfl⟩, .outside .nil⟩
  | case3 start offset rest depth ih =>
    obtain ⟨gap, hpasses, hcloses⟩ := ih h
    have hmark : Cursor.Passes ⟨offset, '*' :: ')' :: rest⟩ ['*', ')'] ⟨offset + 2, rest⟩ :=
      ⟨rfl, rfl⟩
    exact ⟨_, hmark.trans hpasses, .inside .nil hcloses⟩
  | case4 depth start offset c rest =>
    cases h
    obtain rfl : depth = 0 := by simp_all
    exact ⟨[], ⟨rfl, rfl⟩, .outside .nil⟩
  | case5 depth start offset c rest hopen hclose hnot ih =>
    obtain ⟨gap, hpasses, hcloses⟩ := ih h
    have hchar : Cursor.Passes ⟨offset, c :: rest⟩ [c] ⟨offset + c.utf8Size, rest⟩ := ⟨rfl, rfl⟩
    refine ⟨_, hchar.trans hpasses, ?_⟩
    cases depth with
    | zero =>
      -- outside of comments the character is a blank
      cases hcloses with
      | outside isGap => exact .outside (.blank (by simpa using hnot) isGap)
    | succ depth =>
      refine hcloses.char (Bool.eq_false_iff.mpr fun hmark => ?_)
      -- the mark would stand in the text as well
      rcases startsMark_cons.mp hmark with ⟨rfl, tail, rfl⟩ | ⟨rfl, tail, rfl⟩
      · exact hopen _ rfl hpasses.1
      · exact hclose _ rfl hpasses.1
  | case6 =>
    cases h
    exact ⟨[], ⟨rfl, rfl⟩, .outside .nil⟩
  | case7 => cases h

/-- What is skipped between tokens is trivia. -/
theorem exists_isTrivia_of_skip {c d : Cursor} (h : skip c = .ok d) :
    ∃ gap, c.Passes gap d ∧ IsTrivia gap := by
  obtain ⟨gap, hpasses, hcloses⟩ := exists_closes_of_skipFrom h
  cases hcloses with
  | outside isGap => exact ⟨gap, hpasses, isGap⟩

/-- What is skipped before one text is skipped before another one. -/
theorem skip_append_eq {offset stop : Nat} {cs rest tail : List Char}
    (h : skip ⟨offset, cs ++ tail⟩ = .ok ⟨stop, rest ++ tail⟩) (tail' : List Char) :
    skip ⟨offset, cs ++ tail'⟩ = skip ⟨stop, rest ++ tail'⟩ := by
  obtain ⟨gap, ⟨hrest, hstop⟩, hgap⟩ := exists_isTrivia_of_skip h
  have hcs : cs = gap ++ rest := by
    have happend : cs ++ tail = gap ++ rest ++ tail := by
      rw [List.append_assoc]
      exact hrest
    exact List.append_cancel_right happend
  rw [hcs, List.append_assoc, skip_append hgap]
  exact congrArg (fun place => skip ⟨place, rest ++ tail'⟩) hstop.symm

/-- Where skipping ends there is neither a blank nor the start of a comment. -/
theorem not_open_of_skipFrom {depth start offset : Nat} {cs : List Char} {d : Cursor}
    (h : skipFrom depth start offset cs = .ok d) {c : Char} {rest : List Char}
    (hrest : d.rest = c :: rest) :
    isBlank c = false ∧ ∀ after, c = '(' → rest ≠ '*' :: after := by
  -- skipping ends before a character that is no blank and opens no comment
  fun_induction skipFrom depth start offset cs with
  | case1 _ _ _ _ ih => exact ih h
  | case2 start offset after =>
    cases h
    obtain ⟨rfl, rfl⟩ := List.cons.inj hrest
    exact ⟨by decide, fun _ h => absurd h (by decide)⟩
  | case3 _ _ _ _ ih => exact ih h
  | case4 depth start offset d after hopen hclose hblank =>
    cases h
    obtain ⟨rfl, rfl⟩ := List.cons.inj hrest
    simp only [Bool.and_eq_true, Bool.not_eq_true'] at hblank
    exact ⟨hblank.2, fun after hd heq => hopen after hd heq⟩
  | case5 _ _ _ _ _ _ _ _ ih => exact ih h
  | case6 =>
    cases h
    cases hrest
  | case7 => cases h

end Symbolic.Scan
