/-! # The shape of number literals

A literal is a mantissa, then optionally a precision, then optionally an exponent. Each part
is taken as far as it goes: every function here splits a text into the part that it is named
for and what follows, so nothing is lost. -/

namespace Symbolic.Literal

/-- The precision mark. -/
def backquote : Char := '\u0060'

/-- A run of digits of a class with at most one point, and at least one digit. -/
def mantissa? (isDigit : Char → Bool) (cs : List Char) : Option (List Char × List Char) :=
  let whole := cs.takeWhile isDigit
  match cs.dropWhile isDigit with
  | '.' :: rest =>
    let fraction := rest.takeWhile isDigit
    if whole.isEmpty && fraction.isEmpty then none
    else some (whole ++ '.' :: fraction, rest.dropWhile isDigit)
  | rest => if whole.isEmpty then none else some (whole, rest)

/-- A decimal base, two carets, and a mantissa of digits and letters. -/
def based? (cs : List Char) : Option (List Char × List Char) :=
  match cs.dropWhile Char.isDigit with
  | '^' :: '^' :: rest =>
    if (cs.takeWhile Char.isDigit).isEmpty then none
    else (mantissa? Char.isAlphanum rest).map fun (digits, rest) =>
      (cs.takeWhile Char.isDigit ++ '^' :: '^' :: digits, rest)
  | _ => none

/-- An optional sign. -/
def sign : List Char → List Char × List Char
  | '+' :: rest => (['+'], rest)
  | '-' :: rest => (['-'], rest)
  | rest => ([], rest)

/-- A decimal mantissa after an optional sign. -/
def signed? (cs : List Char) : Option (List Char × List Char) :=
  (mantissa? Char.isDigit (sign cs).2).map fun (digits, rest) => ((sign cs).1 ++ digits, rest)

/-- One or two backquotes with a signed decimal mantissa, or else a lone backquote. -/
def precision : List Char → List Char × List Char
  | '\u0060' :: '\u0060' :: rest =>
    match signed? rest with
    | some (digits, rest) => (backquote :: backquote :: digits, rest)
    | none => ([backquote], backquote :: rest)
  | '\u0060' :: rest =>
    match signed? rest with
    | some (digits, rest) => (backquote :: digits, rest)
    | none => ([backquote], rest)
  | rest => ([], rest)

/-- A signed integer after `*^`. -/
def exponent (cs : List Char) : List Char × List Char :=
  match cs with
  | '*' :: '^' :: rest =>
    let digits := (sign rest).2.takeWhile Char.isDigit
    if digits.isEmpty then ([], cs)
    else ('*' :: '^' :: ((sign rest).1 ++ digits), (sign rest).2.dropWhile Char.isDigit)
  | _ => ([], cs)

/-- A whole literal. -/
def whole? (cs : List Char) : Option (List Char × List Char) :=
  (based? cs <|> mantissa? Char.isDigit cs).map fun (mantissa, rest) =>
    let (precision, rest) := precision rest
    let (exponent, rest) := exponent rest
    (mantissa ++ (precision ++ exponent), rest)

/-- Leaves a final point to the text that follows, if that starts with a point itself: in
    `1..` the points are an operator. -/
def yieldPoint : List Char × List Char → List Char × List Char
  | (literal, '.' :: rest) =>
    if literal.getLast? = some '.' then (literal.dropLast, '.' :: '.' :: rest)
    else (literal, '.' :: rest)
  | split => split

/-- The literal at the start of a text, and what follows it. -/
def split? (cs : List Char) : Option (List Char × List Char) :=
  (whole? cs).map yieldPoint

/-! ## Nothing is lost -/

/-- A mantissa is taken off the text and is not empty. -/
theorem append_of_mantissa? {isDigit : Char → Bool} {cs taken rest : List Char}
    (h : mantissa? isDigit cs = some (taken, rest)) : cs = taken ++ rest ∧ taken ≠ [] := by
  have hcs := (List.takeWhile_append_dropWhile (p := isDigit) (l := cs)).symm
  unfold mantissa? at h
  split at h
  · -- a point, and what of the digits is after it
    rename_i tail htail
    rw [htail] at hcs
    simp only at h
    split at h
    · cases h
    · cases h
      simp [← hcs]
  · -- no point, so the digits are all there is
    simp only at h
    split at h
    · cases h
    · rename_i hne
      cases h
      exact ⟨hcs, by simpa using hne⟩

/-- A point alone is no mantissa. -/
theorem ne_point_of_mantissa? {isDigit : Char → Bool} (hpoint : isDigit '.' = false)
    {cs taken rest : List Char} (h : mantissa? isDigit cs = some (taken, rest)) :
    taken ≠ ['.'] := by
  unfold mantissa? at h
  split at h
  · simp only at h
    split at h
    · cases h
    · rename_i hne
      cases h
      -- digits on at least one side of the point
      rw [Ne, List.append_eq_singleton_iff]
      simpa using hne
  · simp only at h
    split at h
    · cases h
    · cases h
      -- a point alone would have to be a digit
      intro heq
      have hall := List.all_takeWhile (p := isDigit) (l := cs)
      rw [heq] at hall
      simp [hpoint] at hall

/-- So is a base with its mantissa. -/
theorem append_of_based? {cs taken rest : List Char} (h : based? cs = some (taken, rest)) :
    cs = taken ++ rest ∧ taken ≠ [] ∧ taken ≠ ['.'] := by
  have hcs := (List.takeWhile_append_dropWhile (p := Char.isDigit) (l := cs)).symm
  unfold based? at h
  split at h
  · rename_i tail htail
    rw [htail] at hcs
    split at h
    · cases h
    · simp only [Option.map_eq_some_iff, Prod.exists, Prod.mk.injEq] at h
      obtain ⟨digits, rest', hdigits, rfl, rfl⟩ := h
      obtain ⟨rfl, -⟩ := append_of_mantissa? hdigits
      -- the two carets make it longer than a point
      refine ⟨by simp [← hcs], by simp, fun heq => ?_⟩
      have := congrArg List.length heq
      simp only [List.length_append, List.length_cons, List.length_nil] at this
      omega
  · cases h

/-- A sign is taken off the text. -/
theorem append_sign (cs : List Char) : (sign cs).1 ++ (sign cs).2 = cs := by
  unfold sign
  split <;> simp

/-- So is a signed run of digits. -/
theorem append_of_signed? {cs taken rest : List Char} (h : signed? cs = some (taken, rest)) :
    cs = taken ++ rest := by
  simp only [signed?, Option.map_eq_some_iff, Prod.exists, Prod.mk.injEq] at h
  obtain ⟨digits, rest', hdigits, rfl, rfl⟩ := h
  rw [List.append_assoc, ← (append_of_mantissa? hdigits).1, append_sign]

/-- So is a precision. -/
theorem append_precision (cs : List Char) : (precision cs).1 ++ (precision cs).2 = cs := by
  unfold precision
  split
  · split
    · rename_i h
      simp [append_of_signed? h, backquote]
    · simp [backquote]
  · split
    · rename_i h
      simp [append_of_signed? h, backquote]
    · simp [backquote]
  · simp

/-- So is an exponent. -/
theorem append_exponent (cs : List Char) : (exponent cs).1 ++ (exponent cs).2 = cs := by
  unfold exponent
  split
  · rename_i rest
    simp only
    split
    · simp
    · simp [List.takeWhile_append_dropWhile, append_sign]
  · simp

/-- So is a literal. -/
theorem append_of_whole? {cs taken rest : List Char} (h : whole? cs = some (taken, rest)) :
    cs = taken ++ rest ∧ taken ≠ [] ∧ taken ≠ ['.'] := by
  simp only [whole?, Option.map_eq_some_iff, Prod.exists, Prod.mk.injEq] at h
  obtain ⟨mantissa, rest', hmantissa, rfl, rfl⟩ := h
  -- the base and the mantissa are neither empty nor a point, whatever follows them
  have key : cs = mantissa ++ rest' ∧ mantissa ≠ [] ∧ mantissa ≠ ['.'] := by
    cases hbased : based? cs with
    | none =>
      have h : mantissa? Char.isDigit cs = some (mantissa, rest') := by
        simpa [hbased] using hmantissa
      exact ⟨(append_of_mantissa? h).1, (append_of_mantissa? h).2,
        ne_point_of_mantissa? (by decide) h⟩
    | some split => exact append_of_based? (by simpa [hbased] using hmantissa)
  refine ⟨?_, by simp [key.2.1], fun heq => ?_⟩
  · rw [List.append_assoc, List.append_assoc, append_exponent, append_precision]
    exact key.1
  · rcases List.append_eq_singleton_iff.mp heq with h | h
    · exact key.2.1 h.1
    · exact key.2.2 h.1

/-- So is one that has given up its point. -/
theorem append_of_split? {cs taken rest : List Char} (h : split? cs = some (taken, rest)) :
    cs = taken ++ rest ∧ taken ≠ [] := by
  simp only [split?, Option.map_eq_some_iff, Prod.exists] at h
  obtain ⟨literal, tail, hwhole, h⟩ := h
  obtain ⟨hcs, hne, hpoint⟩ := append_of_whole? hwhole
  unfold yieldPoint at h
  split at h
  · rename_i literal' tail' heq
    cases heq
    split at h
    · rename_i hlast
      cases h
      -- the last point is given up, and there is more before it
      obtain ⟨init, rfl⟩ := List.getLast?_eq_some_iff.mp hlast
      refine ⟨by simp [hcs], ?_⟩
      rw [List.dropLast_concat]
      rintro rfl
      exact hpoint rfl
    · cases h
      exact ⟨hcs, hne⟩
  · cases h
    exact ⟨hcs, hne⟩

end Symbolic.Literal
