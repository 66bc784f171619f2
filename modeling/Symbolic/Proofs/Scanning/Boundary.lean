import Symbolic.Number.Literal
import Symbolic.Token.Trivia

/-!
# Where a lexeme ends

In a full form an atom stands before a bracket, a comma or the end of the text, and elsewhere a
lexeme may stand before a blank or a comment. None of these can continue a name or a number, so what
stands there does not change how the atom is scanned.

## Key results

- `split?_append`: a literal is taken off the same way with more text after it
- `skip_cons`, `skip_space`: what is skipped between tokens
-/

namespace Symbolic.Scan

/-- What holds of all characters in a list is decided by going over the list, and not over all
    characters that there are. -/
instance (priority := high) decidableForallMem (cs : List Char) (P : Char → Prop)
    [DecidablePred P] : Decidable (∀ c ∈ cs, P c) :=
  List.decidableBAll P cs

/-- The characters that a full form has after an atom, and those that start a comment or are
    blank. -/
def boundaries : List Char :=
  ['[', ']', ',', '('] ++ Text.blanks

/-- Whether a text may follow a lexeme without being taken for a part of it. -/
def AtBoundary (tail : List Char) : Prop :=
  ∀ c ∈ tail.head?, c ∈ boundaries

/-- The end of a text is a boundary. -/
theorem atBoundary_nil : AtBoundary [] :=
  fun _ h => nomatch h

/-- So is a text that starts with a character of a boundary. -/
theorem atBoundary_cons {c : Char} {tail : List Char} (h : c ∈ boundaries) :
    AtBoundary (c :: tail) := by
  intro d hd
  obtain rfl : c = d := by simpa using hd
  exact h

/-- What a text that follows a lexeme cannot start with. -/
theorem AtBoundary.ne_cons {tail : List Char} (h : AtBoundary tail) {c : Char}
    (hc : c ∉ boundaries) (rest : List Char) : tail ≠ c :: rest := by
  rintro rfl
  exact hc (h c rfl)

/-- A boundary starts with no other character. -/
theorem AtBoundary.ne {tail : List Char} (h : AtBoundary tail) {c d : Char}
    (hc : c ∈ tail.head?) (hd : d ∉ boundaries) : c ≠ d := by
  rintro rfl
  exact hd (h c hc)

variable {tail : List Char}

/-- What follows a lexeme does not start with a character of a class that has no boundaries. -/
theorem AtBoundary.any_eq_false (h : AtBoundary tail) {belongs : Char → Bool}
    (hbelongs : ∀ c ∈ boundaries, belongs c = false) : tail.head?.any belongs = false := by
  cases tail with
  | nil => rfl
  | cons c rest => exact hbelongs c (h c rfl)

/-! ## Runs of characters -/

section Runs

variable {belongs : Char → Bool}

/-- What is taken off a text is the same before a tail that does not go on with it. -/
theorem takeWhile_append_of_head (h : tail.head?.any belongs = false) (cs : List Char) :
    (cs ++ tail).takeWhile belongs = cs.takeWhile belongs := by
  induction cs with
  | nil =>
    cases tail with
    | nil => rfl
    | cons c rest => exact List.takeWhile_cons_of_neg (by simpa using h)
  | cons c cs ih =>
    rw [List.cons_append, List.takeWhile_cons, List.takeWhile_cons, ih]

/-- What is left of it is left before the tail. -/
theorem dropWhile_append_of_head (h : tail.head?.any belongs = false) (cs : List Char) :
    (cs ++ tail).dropWhile belongs = cs.dropWhile belongs ++ tail := by
  induction cs with
  | nil =>
    cases tail with
    | nil => rfl
    | cons c rest => exact List.dropWhile_cons_of_neg (by simpa using h)
  | cons c cs ih =>
    rw [List.cons_append, List.dropWhile_cons, List.dropWhile_cons, ih]
    split <;> rfl

end Runs

/-- The text does not start with one of the characters. -/
def Avoids (chars tail : List Char) : Prop :=
  ∀ c ∈ tail.head?, c ∉ chars

/-- What avoids some characters avoids any of them. -/
theorem Avoids.mono {chars chars' : List Char} (h : Avoids chars tail)
    (hsubset : ∀ c ∈ chars', c ∈ chars) : Avoids chars' tail :=
  fun c hc hmem => h c hc (hsubset c hmem)

/-- A boundary avoids all other characters. -/
theorem AtBoundary.avoids (h : AtBoundary tail) {chars : List Char}
    (hchars : ∀ c ∈ chars, c ∉ boundaries) : Avoids chars tail :=
  fun c hc hmem => hchars c hmem (h c hc)

/-- A mark does not reach into what follows if that starts with no character of the mark. -/
theorem exists_of_append_eq {mark : List Char} (h : Avoids mark tail) {cs rest : List Char}
    (heq : cs ++ tail = mark ++ rest) : ∃ after, cs = mark ++ after ∧ rest = after ++ tail := by
  induction mark generalizing cs with
  | nil => exact ⟨cs, rfl, heq.symm⟩
  | cons m mark ih =>
    cases cs with
    | nil =>
      -- the tail itself would start with the mark
      have hm : m ∈ tail.head? := by
        rw [show tail = m :: (mark ++ rest) from heq]
        rfl
      exact absurd List.mem_cons_self (h m hm)
    | cons c cs =>
      obtain ⟨rfl, htail⟩ := List.cons.inj heq
      obtain ⟨after, rfl, hafter⟩ := ih (h.mono fun d hd => List.mem_cons_of_mem _ hd) htail
      exact ⟨after, rfl, hafter⟩

/-! ## Literals -/

/-- A text that is taken apart, with more text after it. -/
def extend (tail : List Char) (split : List Char × List Char) : List Char × List Char :=
  (split.1, split.2 ++ tail)

section Literals

open Literal

/-- No boundary is a digit. -/
theorem isDigit_boundary : ∀ c ∈ boundaries, c.isDigit = false := by
  decide

/-- No boundary is a letter or a digit. -/
theorem isAlphanum_boundary : ∀ c ∈ boundaries, c.isAlphanum = false := by
  decide

/-- The characters other than digits and letters that a literal can go on with. -/
def literalMarks : List Char :=
  ['.', '^', '+', '-', '*', backquote]

/-- A text that no literal goes on with. -/
structure EndsLiteral (tail : List Char) : Prop where
  alphanum : tail.head?.any Char.isAlphanum = false
  marks : Avoids literalMarks tail

/-- Behind a literal that ends stands no digit. -/
theorem EndsLiteral.digit (h : EndsLiteral tail) : tail.head?.any Char.isDigit = false := by
  have halphanum := h.alphanum
  rw [Option.any_eq_false] at halphanum ⊢
  intro c hc
  exact (Bool.or_eq_false_iff.mp (halphanum c hc)).2

/-- A mark of a literal stands before the tail, or not at all. -/
theorem EndsLiteral.exists_of_append_eq (h : EndsLiteral tail) (mark : List Char)
    (hmark : ∀ c ∈ mark, c ∈ literalMarks) {cs rest : List Char}
    (heq : cs ++ tail = mark ++ rest) : ∃ after, cs = mark ++ after ∧ rest = after ++ tail :=
  Scan.exists_of_append_eq (h.marks.mono hmark) heq

/-- A literal ends at a boundary. -/
theorem AtBoundary.endsLiteral (h : AtBoundary tail) : EndsLiteral tail :=
  ⟨h.any_eq_false isAlphanum_boundary, h.avoids (by decide)⟩

/-- A mantissa is the same before a tail that no literal goes on with. -/
theorem mantissa?_append (h : EndsLiteral tail) {isDigit : Char → Bool}
    (hdigit : tail.head?.any isDigit = false) (cs : List Char) :
    mantissa? isDigit (cs ++ tail) = (mantissa? isDigit cs).map (extend tail) := by
  unfold mantissa?
  rw [takeWhile_append_of_head hdigit, dropWhile_append_of_head hdigit]
  split
  · -- a point, which cannot stem from what follows
    rename_i rest hrest
    obtain ⟨after, hdrop, rfl⟩ := h.exists_of_append_eq ['.'] (by decide) hrest
    simp only [hdrop, List.cons_append, List.nil_append, takeWhile_append_of_head hdigit,
      dropWhile_append_of_head hdigit]
    split <;> rfl
  · rename_i hnot
    split
    · rename_i rest hdrop
      exact absurd (by rw [hdrop]; rfl) (hnot (rest ++ tail))
    · simp only
      split <;> rfl

/-- So are a base and its mantissa. -/
theorem based?_append (h : EndsLiteral tail) (cs : List Char) :
    based? (cs ++ tail) = (based? cs).map (extend tail) := by
  unfold based?
  rw [takeWhile_append_of_head h.digit, dropWhile_append_of_head h.digit]
  split
  · rename_i rest hrest
    -- the carets stand before the tail, for it starts with none
    obtain ⟨after, hdrop, rfl⟩ := h.exists_of_append_eq ['^', '^'] (by decide) hrest
    simp only [hdrop, List.cons_append, List.nil_append, mantissa?_append h h.alphanum]
    split
    · rfl
    · simp only [Option.map_map]
      rfl
  · rename_i hnot
    split
    · rename_i rest hdrop
      -- carets that were there are there still
      exact absurd (by rw [hdrop]; rfl) (hnot (rest ++ tail))
    · rfl

/-- So is a sign. -/
theorem sign_append (h : EndsLiteral tail) (cs : List Char) :
    sign (cs ++ tail) = extend tail (sign cs) := by
  unfold sign
  split
  · rename_i rest hrest
    obtain ⟨after, rfl, rfl⟩ := h.exists_of_append_eq ['+'] (by decide) hrest
    rfl
  · rename_i rest hrest
    obtain ⟨after, rfl, rfl⟩ := h.exists_of_append_eq ['-'] (by decide) hrest
    rfl
  · rename_i hplus hminus
    split
    · -- without a sign the tail does not supply one either
      exact (hplus _ rfl).elim
    · exact (hminus _ rfl).elim
    · rfl

/-- So is a signed run of digits. -/
theorem signed?_append (h : EndsLiteral tail) (cs : List Char) :
    signed? (cs ++ tail) = (signed? cs).map (extend tail) := by
  unfold signed?
  rw [sign_append h]
  simp only [extend, mantissa?_append h h.digit, Option.map_map]
  rfl

/-- So is a precision. -/
theorem precision_append (h : EndsLiteral tail) (cs : List Char) :
    precision (cs ++ tail) = extend tail (precision cs) := by
  unfold precision
  split
  · rename_i rest hrest
    obtain ⟨after, rfl, rfl⟩ :=
      h.exists_of_append_eq [backquote, backquote] (by decide) hrest
    simp only [List.cons_append, List.nil_append, backquote, signed?_append h]
    cases signed? after <;> rfl
  · rename_i rest hnot hrest
    obtain ⟨after, rfl, rfl⟩ :=
      h.exists_of_append_eq [backquote] (by decide) hrest
    -- a single mark, as no second one comes after it
    have hafter : ∀ rest, after ≠ backquote :: rest := by
      rintro rest rfl
      exact hnot (rest ++ tail) rfl
    rw [signed?_append h]
    cases after with
    | nil => rfl
    | cons c after =>
      have hc : c ≠ '\u0060' := fun heq => hafter after (by rw [heq, backquote])
      cases hsigned : signed? (c :: after) <;> simp [hsigned, hc, backquote, extend]
  · rename_i htwo hone
    split
    · exact (htwo _ rfl).elim
    · exact (hone _ rfl).elim
    · rfl

/-- So is an exponent. -/
theorem exponent_append (h : EndsLiteral tail) (cs : List Char) :
    exponent (cs ++ tail) = extend tail (exponent cs) := by
  unfold exponent
  split
  · rename_i rest hrest
    obtain ⟨after, rfl, rfl⟩ := h.exists_of_append_eq ['*', '^'] (by decide) hrest
    simp only [List.cons_append, List.nil_append, sign_append h, extend,
      takeWhile_append_of_head h.digit, dropWhile_append_of_head h.digit]
    split <;> rfl
  · rename_i hnot
    split
    · exact (hnot _ rfl).elim
    · rfl

/-- So is a literal before it gives up a point. -/
theorem whole?_append (h : EndsLiteral tail) (cs : List Char) :
    whole? (cs ++ tail) = (whole? cs).map (extend tail) := by
  -- the same alternative succeeds, with or without the text after it
  have hmantissa : (based? (cs ++ tail) <|> mantissa? Char.isDigit (cs ++ tail)) =
      (based? cs <|> mantissa? Char.isDigit cs).map (extend tail) := by
    rw [based?_append h, mantissa?_append h h.digit]
    cases based? cs <;> rfl
  unfold whole?
  rw [hmantissa, Option.map_map, Option.map_map]
  congr 1
  funext split
  simp only [Function.comp_apply, extend, precision_append h, exponent_append h]

/-- A literal is taken off in the same way with more text after it. -/
theorem split?_append (h : EndsLiteral tail) (cs : List Char) :
    split? (cs ++ tail) = (split? cs).map (extend tail) := by
  unfold split?
  rw [whole?_append h, Option.map_map, Option.map_map]
  congr 1
  funext ⟨literal, rest⟩
  simp only [Function.comp_apply, extend]
  unfold yieldPoint
  split
  · rename_i literal' after heq
    -- the literal ends in a point, or the point is left to what comes after it
    obtain ⟨rfl, hrest⟩ := Prod.mk.inj heq
    obtain ⟨after', rfl, rfl⟩ := h.exists_of_append_eq ['.'] (by decide) hrest
    simp only [List.cons_append, List.nil_append]
    split <;> rfl
  · rename_i hnot
    split
    · rename_i heq
      cases heq
      exact (hnot _ _ rfl).elim
    · rfl

end Literals

/-! ## Between tokens -/

/-- At the end of a text nothing is skipped. -/
theorem skip_nil (offset : Nat) : Trivia.skip ⟨offset, []⟩ = .ok ⟨offset, []⟩ := by
  rw [Trivia.skip, Trivia.skipFrom, if_pos rfl]

/-- Nothing is skipped before a character that is not blank, unless a comment starts there. -/
theorem skip_of_not_open {c : Char} {cs : List Char} (hblank : Text.isBlank c = false)
    (hopen : ∀ rest, c = '(' → cs ≠ '*' :: rest) (offset : Nat) :
    Trivia.skip ⟨offset, c :: cs⟩ = .ok ⟨offset, c :: cs⟩ := by
  unfold Trivia.skip Trivia.skipFrom
  split
  · rename_i heq
    -- the only branch that would go on: a comment that opens here
    exact absurd (List.cons.inj heq).2 (hopen _ (List.cons.inj heq).1)
  · rename_i heq
    exact congrArg (fun cs => Except.ok (Cursor.mk offset cs)) heq.symm
  · rename_i heq
    obtain ⟨rfl, rfl⟩ := List.cons.inj heq
    simp [hblank]
  · rename_i heq
    cases heq

/-- Nothing is skipped before a character that is neither blank nor starts a comment. -/
theorem skip_cons {c : Char} (hblank : Text.isBlank c = false) (hcomment : c ≠ '(')
    (offset : Nat) (cs : List Char) :
    Trivia.skip ⟨offset, c :: cs⟩ = .ok ⟨offset, c :: cs⟩ :=
  skip_of_not_open hblank (fun _ h => absurd h hcomment) offset

/-- With no comment open it does not matter where one might have started. -/
theorem skipFrom_zero (start start' offset : Nat) (cs : List Char) :
    Trivia.skipFrom 0 start offset cs = Trivia.skipFrom 0 start' offset cs := by
  induction cs generalizing offset with
  | nil => rfl
  | cons c cs ih =>
    unfold Trivia.skipFrom
    split
    · rfl
    · rfl
    · rename_i heq
      obtain ⟨rfl, rfl⟩ := List.cons.inj heq
      rw [ih]
    · rfl

/-- A space is skipped. -/
theorem skip_space (offset : Nat) (cs : List Char) :
    Trivia.skip ⟨offset, ' ' :: cs⟩ = Trivia.skip ⟨offset + 1, cs⟩ := by
  -- only the offset at which a comment would start is another one
  have hblank : Text.isBlank ' ' = true := by decide
  unfold Trivia.skip
  rw [skipFrom_zero (offset + 1) offset, Trivia.skipFrom]
  · simp only [hblank, Bool.not_true, Bool.and_false, Bool.false_eq_true, if_false]
    rfl
  · simp
  · simp

end Symbolic.Scan
