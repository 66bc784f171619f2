import Mathlib.Data.List.Basic
import Symbolic.Number.Basic
import Symbolic.Number.Literal

/-!
# The parts of a literal

A literal is made of an optional base, a mantissa, an optional precision and an optional exponent.
What is taken off a text as a literal has such parts, and the text of such parts is taken off as a
whole where nothing follows it.

## Key results

- `exists_parts_of_split?`: a literal has parts
- `Parts.WellFormed.split?_text`: the text of parts is a literal
-/

namespace Symbolic.Literal

/-! ## Runs of digits -/

/-- Digits of a class with at most one point, and at least one digit. -/
inductive IsRun (isDigit : Char → Bool) : List Char → Prop where
  | whole {digits : List Char} (ne : digits ≠ []) (all : digits.all isDigit = true) :
      IsRun isDigit digits
  | point {digits fraction : List Char} (ne : digits ≠ [] ∨ fraction ≠ [])
      (all : digits.all isDigit = true) (all' : fraction.all isDigit = true) :
      IsRun isDigit (digits ++ '.' :: fraction)

/-- A text that cannot go on with a run. -/
def EndsRun (isDigit : Char → Bool) (rest : List Char) : Prop :=
  ∀ c ∈ rest.head?, isDigit c = false ∧ c ≠ '.'

section Runs

variable {isDigit : Char → Bool} {cs taken rest : List Char}

/-- All of a run is taken off a text that does not go on with it. -/
theorem takeWhile_append_of_all (hcs : cs.all isDigit = true)
    (hrest : ∀ c ∈ rest.head?, isDigit c = false) : (cs ++ rest).takeWhile isDigit = cs := by
  rw [List.takeWhile_append_of_pos (List.all_eq_true.mp hcs)]
  cases rest with
  | nil => simp
  | cons c rest => simp [hrest c rfl]

/-- What is left is the text behind the run. -/
theorem dropWhile_append_of_all (hcs : cs.all isDigit = true)
    (hrest : ∀ c ∈ rest.head?, isDigit c = false) : (cs ++ rest).dropWhile isDigit = rest := by
  rw [List.dropWhile_append_of_pos (List.all_eq_true.mp hcs)]
  cases rest with
  | nil => rfl
  | cons c rest => simp [hrest c rfl]

/-- What is taken off as a mantissa is a run of digits. -/
theorem isRun_of_mantissa? (h : mantissa? isDigit cs = some (taken, rest)) :
    IsRun isDigit taken := by
  unfold mantissa? at h
  split at h
  · simp only at h
    split at h
    · cases h
    · rename_i hne
      cases h
      -- a point with digits on one side at least
      refine .point ?_ List.all_takeWhile List.all_takeWhile
      rw [Bool.and_eq_true, List.isEmpty_iff, List.isEmpty_iff] at hne
      exact Decidable.not_and_iff_or_not.mp hne
  · simp only at h
    split at h
    · cases h
    · rename_i hne
      cases h
      -- digits without a point
      exact .whole (by simpa using hne) List.all_takeWhile

/-- A run with a point is taken off whole before anything but a digit. -/
theorem mantissa?_point_append {digits fraction : List Char} (ne : digits ≠ [] ∨ fraction ≠ [])
    (all : digits.all isDigit = true) (all' : fraction.all isDigit = true)
    (hpoint : isDigit '.' = false) (hrest : ∀ c ∈ rest.head?, isDigit c = false) :
    mantissa? isDigit (digits ++ '.' :: fraction ++ rest) =
      some (digits ++ '.' :: fraction, rest) := by
  have hafter : ∀ c ∈ ('.' :: (fraction ++ rest)).head?, isDigit c = false := by
    rintro c hc
    obtain rfl : '.' = c := by simpa using hc
    exact hpoint
  unfold mantissa?
  rw [List.append_assoc, List.cons_append, takeWhile_append_of_all all hafter,
    dropWhile_append_of_all all hafter]
  simp only [takeWhile_append_of_all all' hrest, dropWhile_append_of_all all' hrest]
  rcases ne with ne | ne <;> simp [ne]

/-- A run is taken off whole. -/
theorem IsRun.mantissa?_append (h : IsRun isDigit cs) (hpoint : isDigit '.' = false)
    (hrest : EndsRun isDigit rest) : mantissa? isDigit (cs ++ rest) = some (cs, rest) := by
  have hrest' : ∀ c ∈ rest.head?, isDigit c = false := fun c hc => (hrest c hc).1
  cases h with
  | whole ne all =>
    unfold mantissa?
    rw [takeWhile_append_of_all all hrest', dropWhile_append_of_all all hrest']
    split
    · rename_i after
      exact absurd rfl (hrest '.' rfl).2
    · simp [ne]
  | point ne all all' => exact mantissa?_point_append ne all all' hpoint hrest'

/-- A run of digits is not empty. -/
theorem IsRun.ne_nil (h : IsRun isDigit cs) : cs ≠ [] := by
  cases h with
  | whole ne _ => exact ne
  | point _ _ _ => simp

/-- Without a final point a run is still a run. -/
theorem IsRun.dropLast (h : IsRun isDigit cs) (hpoint : isDigit '.' = false)
    (hlast : cs.getLast? = some '.') : IsRun isDigit cs.dropLast := by
  -- digits do not end in a point, so there are none behind it
  have hnot : ∀ digits : List Char, digits.all isDigit = true → digits.getLast? ≠ some '.' := by
    intro digits hall heq
    have hmem := List.mem_of_getLast? heq
    have hdigit := List.all_eq_true.mp hall '.' hmem
    rw [hpoint] at hdigit
    cases hdigit
  cases h with
  | whole _ all => exact absurd hlast (hnot cs all)
  | @point digits fraction ne all all' =>
    cases fraction with
    | nil =>
      rw [List.dropLast_concat]
      exact .whole (by simpa using ne) all
    | cons c fraction =>
      rw [List.getLast?_append_of_ne_nil _ (List.cons_ne_nil _ _), List.getLast?_cons_cons] at hlast
      exact absurd hlast (hnot _ all')

/-- Every character of a run is a digit or a point. -/
theorem IsRun.mem (h : IsRun isDigit cs) {c : Char} (hc : c ∈ cs) : isDigit c = true ∨ c = '.' := by
  cases h with
  | whole _ all => exact .inl (List.all_eq_true.mp all c hc)
  | point _ all all' =>
    rcases List.mem_append.mp hc with hmem | hmem
    · exact .inl (List.all_eq_true.mp all c hmem)
    · rcases List.mem_cons.mp hmem with rfl | hmem
      · exact .inr rfl
      · exact .inl (List.all_eq_true.mp all' c hmem)

/-- A run of digits is one for any class that holds its digits. -/
theorem IsRun.mono {isDigit' : Char → Bool} (h : IsRun isDigit cs)
    (hmono : ∀ c ∈ cs, isDigit c = true → isDigit' c = true) : IsRun isDigit' cs := by
  have hall : ∀ digits ⊆ cs, digits.all isDigit = true → digits.all isDigit' = true := by
    intro digits hsub hdigits
    rw [List.all_eq_true] at hdigits ⊢
    exact fun c hc => hmono c (hsub hc) (hdigits c hc)
  cases h with
  | whole ne all => exact .whole ne (hall cs (List.Subset.refl cs) all)
  | point ne all all' =>
    exact .point ne (hall _ (List.subset_append_left _ _) all)
      (hall _ (fun c hc => by simp [hc]) all')

end Runs

/-! ## Signs -/

/-- What can stand where a sign can. -/
def signs : List (List Char) :=
  [['+'], ['-'], []]

/-- Digits of a class, and at least one of them. -/
def IsDigits (isDigit : Char → Bool) (cs : List Char) : Prop :=
  cs ≠ [] ∧ cs.all isDigit = true

/-- Decimal digits of some form after an optional sign. -/
def IsSigned (isDigits : List Char → Prop) (cs : List Char) : Prop :=
  ∃ before ∈ signs, ∃ digits, isDigits digits ∧ cs = before ++ digits

section Signs

variable {cs rest taken : List Char}

/-- Digits alone are a run of digits. -/
theorem IsDigits.isRun (h : IsDigits Char.isDigit cs) : IsRun Char.isDigit cs :=
  .whole h.1 h.2

/-- What is taken off as a sign is one. -/
theorem sign_fst_mem (cs : List Char) : (sign cs).1 ∈ signs := by
  unfold sign
  split <;> simp [signs]

/-- A sign before a run of digits is taken off. -/
theorem sign_append {before digits : List Char} (hbefore : before ∈ signs)
    (h : IsRun Char.isDigit digits) :
    sign (before ++ digits ++ rest) = (before, digits ++ rest) := by
  simp only [signs, List.mem_cons, List.not_mem_nil, or_false] at hbefore
  rcases hbefore with rfl | rfl | rfl
  · rfl
  · rfl
  · -- a run does not start with a sign itself
    cases digits with
    | nil => exact absurd rfl h.ne_nil
    | cons c digits =>
      have hc := h.mem List.mem_cons_self
      unfold sign
      split
      · rename_i heq
        obtain ⟨rfl, -⟩ := List.cons.inj heq
        rcases hc with hc | hc <;> cases hc
      · rename_i heq
        obtain ⟨rfl, -⟩ := List.cons.inj heq
        rcases hc with hc | hc <;> cases hc
      · rfl

/-- What is taken off with a sign is a run of digits behind one. -/
theorem isSigned_of_signed? (h : signed? cs = some (taken, rest)) :
    IsSigned (IsRun Char.isDigit) taken := by
  simp only [signed?, Option.map_eq_some_iff, Prod.exists, Prod.mk.injEq] at h
  obtain ⟨digits, rest', hdigits, rfl, rfl⟩ := h
  exact ⟨_, sign_fst_mem cs, digits, isRun_of_mantissa? hdigits, rfl⟩

/-- A signed run of digits is taken off a text that does not go on with it. -/
theorem IsSigned.signed?_append (h : IsSigned (IsRun Char.isDigit) cs)
    (hrest : EndsRun Char.isDigit rest) : signed? (cs ++ rest) = some (cs, rest) := by
  obtain ⟨before, hbefore, digits, hdigits, rfl⟩ := h
  unfold signed?
  rw [sign_append hbefore hdigits, hdigits.mantissa?_append (by decide) hrest]
  rfl

/-- A signed run of digits stays one without the point at its end. -/
theorem IsSigned.dropLast (h : IsSigned (IsRun Char.isDigit) cs)
    (hlast : cs.getLast? = some '.') : IsSigned (IsRun Char.isDigit) cs.dropLast := by
  obtain ⟨before, hbefore, digits, hdigits, rfl⟩ := h
  rw [List.getLast?_append_of_ne_nil _ hdigits.ne_nil] at hlast
  rw [List.dropLast_append_of_ne_nil hdigits.ne_nil]
  exact ⟨before, hbefore, _, hdigits.dropLast (by decide) hlast, rfl⟩

/-- A signed run of digits is not empty. -/
theorem IsSigned.ne_nil (h : IsSigned (IsRun Char.isDigit) cs) : cs ≠ [] := by
  obtain ⟨before, -, digits, hdigits, rfl⟩ := h
  simp [hdigits.ne_nil]

end Signs

/-! ## Parts -/

/-- The parts of a literal. -/
structure Parts where
  base : Option (List Char)
  mantissa : List Char
  /-- What follows the first backquote. -/
  precision : Option (List Char)
  /-- What follows `*^`. -/
  exponent : Option (List Char)

namespace Parts

/-- The precision with its mark. -/
def precisionText (parts : Parts) : List Char :=
  parts.precision.elim [] (backquote :: ·)

/-- The exponent with its mark. -/
def exponentText (parts : Parts) : List Char :=
  parts.exponent.elim [] ('*' :: '^' :: ·)

/-- The base with its mark. -/
def baseText (parts : Parts) : List Char :=
  parts.base.elim [] (· ++ ['^', '^'])

/-- The text of the parts. -/
def text (parts : Parts) : List Char :=
  parts.baseText ++ parts.mantissa ++ (parts.precisionText ++ parts.exponentText)

/-- The digits of the mantissa: letters are digits only after a base. -/
def isDigit (parts : Parts) : Char → Bool :=
  if parts.base.isSome then Char.isAlphanum else Char.isDigit

/-- Each part is what it has to be. -/
structure WellFormed (parts : Parts) : Prop where
  base : ∀ base ∈ parts.base, IsDigits Char.isDigit base
  mantissa : IsRun parts.isDigit parts.mantissa
  precision : ∀ precision ∈ parts.precision, precision = [] ∨
    ∃ mark ∈ [[], [backquote]], ∃ digits, IsSigned (IsRun Char.isDigit) digits ∧
      precision = mark ++ digits
  exponent : ∀ exponent ∈ parts.exponent, IsSigned (IsDigits Char.isDigit) exponent

end Parts

/-! ## A literal has parts -/

section Analysis

variable {cs taken rest : List Char}

/-- What is taken off as a precision is one. -/
theorem exists_of_precision (cs : List Char) : ∃ precision : Option (List Char),
    (Literal.precision cs).1 = precision.elim [] (backquote :: ·) ∧
      ∀ digits ∈ precision, digits = [] ∨ ∃ mark ∈ [[], [backquote]], ∃ digits',
        IsSigned (IsRun Char.isDigit) digits' ∧ digits = mark ++ digits' := by
  unfold Literal.precision
  -- an accuracy behind two marks, a precision behind one, or no mark at all
  split
  · split
    · rename_i digits _ hsigned
      refine ⟨some (backquote :: digits), rfl, ?_⟩
      rintro _ ⟨⟩
      exact .inr ⟨[backquote], by simp, digits, isSigned_of_signed? hsigned, rfl⟩
    · refine ⟨some [], rfl, ?_⟩
      rintro _ ⟨⟩
      exact .inl rfl
  · split
    · rename_i digits _ hsigned
      refine ⟨some digits, rfl, ?_⟩
      rintro _ ⟨⟩
      exact .inr ⟨[], by simp, digits, isSigned_of_signed? hsigned, rfl⟩
    · refine ⟨some [], rfl, ?_⟩
      rintro _ ⟨⟩
      exact .inl rfl
  · exact ⟨none, rfl, fun _ hmem => nomatch hmem⟩

/-- What is taken off as an exponent is one. -/
theorem exists_of_exponent (cs : List Char) : ∃ exponent : Option (List Char),
    (Literal.exponent cs).1 = exponent.elim [] ('*' :: '^' :: ·) ∧
      ∀ digits ∈ exponent, IsSigned (IsDigits Char.isDigit) digits := by
  unfold Literal.exponent
  split
  · rename_i after
    dsimp only
    split
    · -- the mark is left alone when no digits follow
      exact ⟨none, rfl, fun _ hmem => nomatch hmem⟩
    · rename_i hne
      refine ⟨some _, rfl, ?_⟩
      rintro _ ⟨⟩
      exact ⟨_, sign_fst_mem after, _, ⟨by simpa using hne, List.all_takeWhile⟩, rfl⟩
  · exact ⟨none, rfl, fun _ hmem => nomatch hmem⟩

/-- A mantissa is a run, after a base or without one. -/
theorem exists_of_mantissa
    (h : (based? cs <|> mantissa? Char.isDigit cs) = some (taken, rest)) :
    ∃ (base : Option (List Char)) (mantissa : List Char),
      taken = base.elim [] (· ++ ['^', '^']) ++ mantissa ∧
      (∀ digits ∈ base, IsDigits Char.isDigit digits) ∧
      IsRun (if base.isSome then Char.isAlphanum else Char.isDigit) mantissa := by
  -- a base is tried first, a mantissa alone is what is left
  cases hbased : based? cs with
  | none =>
    have hmantissa : mantissa? Char.isDigit cs = some (taken, rest) := by
      simpa [hbased] using h
    exact ⟨none, taken, rfl, fun _ hmem => (nomatch hmem), isRun_of_mantissa? hmantissa⟩
  | some found =>
    obtain rfl : found = (taken, rest) := by simpa [hbased] using h
    unfold based? at hbased
    split at hbased
    · split at hbased
      · cases hbased
      · rename_i hne
        simp only [Option.map_eq_some_iff, Prod.exists, Prod.mk.injEq] at hbased
        obtain ⟨mantissa, rest', hmantissa, rfl, rfl⟩ := hbased
        refine ⟨some (cs.takeWhile Char.isDigit), mantissa, by simp, ?_,
          isRun_of_mantissa? hmantissa⟩
        rintro _ ⟨⟩
        exact ⟨by simpa using hne, List.all_takeWhile⟩
    · cases hbased

/-- What is taken off as a literal has parts. -/
theorem exists_parts_of_whole? (h : whole? cs = some (taken, rest)) :
    ∃ parts : Parts, parts.WellFormed ∧ taken = parts.text := by
  simp only [whole?, Option.map_eq_some_iff, Prod.exists, Prod.mk.injEq] at h
  obtain ⟨mantissa, rest', hmantissa, rfl, rfl⟩ := h
  obtain ⟨base, digits, rfl, hbase, hdigits⟩ := exists_of_mantissa hmantissa
  obtain ⟨precision, hprecision, hprecision'⟩ := exists_of_precision rest'
  obtain ⟨exponent, hexponent, hexponent'⟩ := exists_of_exponent (Literal.precision rest').2
  refine ⟨⟨base, digits, precision, exponent⟩, ⟨hbase, hdigits, hprecision', hexponent'⟩, ?_⟩
  rw [hprecision, hexponent]
  rfl

namespace Parts

variable {parts : Parts}

/-- A point is no digit in any base. -/
theorem isDigit_point : parts.isDigit '.' = false := by
  unfold isDigit
  split <;> decide

/-- The final point of the parts, which can be left out, is that of the mantissa or of the
    precision. -/
theorem WellFormed.exists_dropLast (h : parts.WellFormed) (hlast : parts.text.getLast? = some '.') :
    ∃ parts' : Parts, parts'.WellFormed ∧ parts.text.dropLast = parts'.text := by
  obtain ⟨base, mantissa, precision, exponent⟩ := parts
  cases exponent with
  | some exponent =>
    -- an exponent ends in a digit
    obtain ⟨before, -, digits, ⟨hne, hall⟩, rfl⟩ := h.exponent exponent rfl
    simp only [text, exponentText, Option.elim_some, ← List.cons_append, ← List.append_assoc]
      at hlast
    rw [List.getLast?_append_of_ne_nil _ hne] at hlast
    cases List.all_eq_true.mp hall '.' (List.mem_of_getLast? hlast)
  | none =>
    cases precision with
    | none =>
      have hne := h.mantissa.ne_nil
      simp only [text, precisionText, exponentText, Option.elim_none, List.append_nil] at hlast ⊢
      rw [List.getLast?_append_of_ne_nil _ hne] at hlast
      rw [List.dropLast_append_of_ne_nil hne]
      exact ⟨⟨base, mantissa.dropLast, none, none⟩,
        ⟨h.base, h.mantissa.dropLast isDigit_point hlast, by simp, by simp⟩,
        by simp [baseText]⟩
    | some precision =>
      rcases h.precision precision rfl with rfl | ⟨mark, hmark, digits, hdigits, rfl⟩
      · -- a backquote alone is no point
        simp [text, precisionText, exponentText, backquote] at hlast
      · have hne := hdigits.ne_nil
        simp only [text, precisionText, exponentText, Option.elim_none, List.append_nil,
          Option.elim_some, ← List.cons_append, ← List.append_assoc] at hlast ⊢
        rw [List.getLast?_append_of_ne_nil _ hne] at hlast
        rw [List.dropLast_append_of_ne_nil hne]
        refine ⟨⟨base, mantissa, some (mark ++ digits.dropLast), none⟩, ⟨h.base, h.mantissa, ?_,
          by simp⟩, by simp [baseText]⟩
        rintro _ ⟨⟩
        exact .inr ⟨mark, hmark, _, hdigits.dropLast hlast, rfl⟩

end Parts

/-- What is taken off a text as a literal has parts. -/
theorem exists_parts_of_split? (h : split? cs = some (taken, rest)) :
    ∃ parts : Parts, parts.WellFormed ∧ taken = parts.text := by
  simp only [split?, Option.map_eq_some_iff, Prod.exists] at h
  obtain ⟨literal, tail, hwhole, h⟩ := h
  obtain ⟨parts, hparts, rfl⟩ := exists_parts_of_whole? hwhole
  unfold yieldPoint at h
  split at h
  · rename_i heq
    cases heq
    split at h
    · rename_i hlast
      cases h
      -- a literal that gives up its last point has parts without it
      exact hparts.exists_dropLast hlast
    · cases h
      exact ⟨parts, hparts, rfl⟩
  · cases h
    exact ⟨parts, hparts, rfl⟩

end Analysis

/-! ## The text of parts is a literal -/

namespace Parts

variable {parts : Parts}

/-- What follows the mantissa starts with a mark. -/
theorem mem_head?_marks {c : Char}
    (hc : c ∈ (parts.precisionText ++ parts.exponentText).head?) : c = backquote ∨ c = '*' := by
  obtain ⟨base, mantissa, precision, exponent⟩ := parts
  cases precision with
  | some precision =>
    obtain rfl : backquote = c := by simpa [precisionText] using hc
    exact .inl rfl
  | none =>
    cases exponent with
    | some exponent =>
      obtain rfl : '*' = c := by simpa [precisionText, exponentText] using hc
      exact .inr rfl
    | none => cases hc

/-- A run of digits ends at a precision or an exponent. -/
theorem endsRun_marks {isDigit : Char → Bool} (hbackquote : isDigit backquote = false)
    (hstar : isDigit '*' = false) :
    EndsRun isDigit (parts.precisionText ++ parts.exponentText) := by
  intro c hc
  rcases mem_head?_marks hc with rfl | rfl
  · exact ⟨hbackquote, by decide⟩
  · exact ⟨hstar, by decide⟩

/-- A run of digits ends at an exponent. -/
theorem endsRun_exponentText : EndsRun Char.isDigit parts.exponentText := by
  unfold exponentText
  cases parts.exponent with
  | none => exact fun c hc => nomatch hc
  | some exponent =>
    rintro _ ⟨⟩
    exact ⟨by decide, by decide⟩

/-- A mantissa after no base is not taken for a base. -/
theorem based?_of_isRun {cs rest : List Char} (h : IsRun Char.isDigit cs)
    (hrest : EndsRun Char.isDigit rest) (hcaret : ∀ c ∈ rest.head?, c ≠ '^') :
    based? (cs ++ rest) = none := by
  unfold based?
  cases h with
  | whole ne all =>
    rw [dropWhile_append_of_all all fun c hc => (hrest c hc).1]
    split
    · exact absurd rfl (hcaret '^' rfl)
    · rfl
  | @point digits fraction ne all all' =>
    -- the point comes before any caret
    have hpoint : ∀ c ∈ ('.' :: (fraction ++ rest)).head?, c.isDigit = false := by
      rintro _ ⟨⟩
      decide
    rw [List.append_assoc, List.cons_append, dropWhile_append_of_all all hpoint]
    rfl

/-- The base and the mantissa are taken off the text of parts. -/
theorem WellFormed.mantissa_text (h : parts.WellFormed) :
    (based? parts.text <|> mantissa? Char.isDigit parts.text) =
      some (parts.baseText ++ parts.mantissa, parts.precisionText ++ parts.exponentText) := by
  have hrun := h.mantissa
  unfold text
  cases hbase : parts.base with
  | none =>
    simp only [isDigit, hbase, Option.isSome_none, Bool.false_eq_true, if_false] at hrun
    have hrest : EndsRun Char.isDigit (parts.precisionText ++ parts.exponentText) :=
      endsRun_marks (by decide) (by decide)
    -- no base, and none is taken for one: no caret follows the digits
    have hcaret : ∀ c ∈ (parts.precisionText ++ parts.exponentText).head?, c ≠ '^' := by
      intro c hc
      rcases mem_head?_marks hc with rfl | rfl <;> decide
    simp only [baseText, hbase, Option.elim_none, List.nil_append]
    rw [based?_of_isRun hrun hrest hcaret, hrun.mantissa?_append (by decide) hrest]
    rfl
  | some base =>
    simp only [isDigit, hbase, Option.isSome_some, if_true] at hrun
    have hrest : EndsRun Char.isAlphanum (parts.precisionText ++ parts.exponentText) :=
      endsRun_marks (by decide) (by decide)
    obtain ⟨hne, hall⟩ := h.base base hbase
    have hcaret : ∀ c ∈ ('^' :: '^' :: (parts.mantissa ++
        (parts.precisionText ++ parts.exponentText))).head?, c.isDigit = false := by
      rintro _ ⟨⟩
      decide
    -- the digits before the carets are the base, and letters are digits behind it
    have hbased : based? (base ++ '^' :: '^' :: (parts.mantissa ++
        (parts.precisionText ++ parts.exponentText))) = some (base ++ '^' :: '^' :: parts.mantissa,
          parts.precisionText ++ parts.exponentText) := by
      unfold based?
      rw [dropWhile_append_of_all hall hcaret, takeWhile_append_of_all hall hcaret]
      simp only [List.isEmpty_iff, hne, if_false, hrun.mantissa?_append (by decide) hrest,
        Option.map_some]
    simp only [baseText, hbase, Option.elim_some, List.append_assoc, List.cons_append,
      List.nil_append, hbased]
    rfl

/-- A signed run of digits does not start with a precision mark. -/
theorem head_ne_backquote_of_isSigned {cs rest : List Char}
    (h : IsSigned (IsRun Char.isDigit) cs) : ∀ after, cs ++ rest ≠ backquote :: after := by
  obtain ⟨before, hbefore, digits, hdigits, rfl⟩ := h
  intro after heq
  simp only [signs, List.mem_cons, List.not_mem_nil, or_false] at hbefore
  rcases hbefore with rfl | rfl | rfl
  · cases heq
  · cases heq
  · -- without a sign the first character is a digit or a point
    cases digits with
    | nil => exact hdigits.ne_nil rfl
    | cons c digits =>
      obtain ⟨rfl, -⟩ := List.cons.inj heq
      rcases hdigits.mem List.mem_cons_self with hc | hc <;> cases hc

/-- The precision is taken off the text behind the mantissa. -/
theorem WellFormed.precision_text (h : parts.WellFormed) :
    Literal.precision (parts.precisionText ++ parts.exponentText) =
      (parts.precisionText, parts.exponentText) := by
  have hends := parts.endsRun_exponentText
  unfold precisionText
  cases hprecision : parts.precision with
  | none =>
    unfold exponentText
    cases parts.exponent <;> rfl
  | some precision =>
    rcases h.precision precision hprecision with rfl | ⟨mark, hmark, digits, hdigits, rfl⟩
    · unfold exponentText
      cases parts.exponent <;> rfl
    · have hsigned := hdigits.signed?_append hends
      simp only [List.mem_cons, List.not_mem_nil, or_false] at hmark
      -- a precision or an accuracy, by the number of marks
      rcases hmark with rfl | rfl
      · simp only [Option.elim_some, List.nil_append, List.cons_append]
        unfold Literal.precision
        split
        · rename_i heq
          -- digits do not start with a second mark
          obtain ⟨-, heq⟩ := List.cons.inj heq
          exact absurd heq (head_ne_backquote_of_isSigned hdigits _)
        · rename_i heq
          obtain ⟨-, rfl⟩ := List.cons.inj heq
          simp only [hsigned]
        · rename_i hnot
          exact absurd rfl (hnot _)
      · simp only [Option.elim_some, List.cons_append, List.nil_append]
        unfold Literal.precision backquote
        simp only [hsigned]

/-- The exponent is taken off the text behind the precision. -/
theorem WellFormed.exponent_text (h : parts.WellFormed) :
    Literal.exponent parts.exponentText = (parts.exponentText, []) := by
  unfold exponentText
  cases hexponent : parts.exponent with
  | none => rfl
  | some exponent =>
    obtain ⟨before, hbefore, digits, hdigits, rfl⟩ := h.exponent exponent hexponent
    -- nothing stands behind the digits of the exponent
    have hsign : sign (before ++ digits ++ []) = (before, digits ++ []) :=
      sign_append hbefore hdigits.isRun
    have htake : (digits ++ []).takeWhile Char.isDigit = digits :=
      takeWhile_append_of_all hdigits.2 (by simp)
    have hdrop : (digits ++ []).dropWhile Char.isDigit = [] :=
      dropWhile_append_of_all hdigits.2 (by simp)
    rw [List.append_nil, List.append_nil] at hsign
    rw [List.append_nil] at htake hdrop
    simp only [Option.elim_some, Literal.exponent, hsign, htake, hdrop, List.isEmpty_iff,
      hdigits.1, if_false]

/-- The text of parts is taken off as a whole. -/
theorem WellFormed.split?_text (h : parts.WellFormed) :
    split? parts.text = some (parts.text, []) := by
  have hwhole : whole? parts.text = some (parts.text, []) := by
    simp only [whole?, h.mantissa_text, Option.map_some, h.precision_text, h.exponent_text]
    rfl
  rw [split?, hwhole]
  rfl

end Parts

end Symbolic.Literal
