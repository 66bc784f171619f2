import Symbolic.Proofs.Continued.Final
import Symbolic.Proofs.FullForm.Magnitude
import Symbolic.Proofs.Scanning.LongestLiteral
import Symbolic.Proofs.Scanning.Tokens

/-!
# Marks behind a literal

The longest literal may still stand before a precision mark or an exponent mark, if no precision
or exponent follows that. The numeral is then a fault, located from its start to behind the mark. An
exponent mark is overlooked, though, where what follows it starts like an exponent: a sign is enough
for that, and so is anything that an exponent can start with where the literal has one already. The
mark is then read as two operators.

## Key results

- `Literal.Overlooked`: the exponent marks that are read as operators
- `Numeral.read_of_startsMark`: a numeral before a mark
- `Scan.Visits.fault`: a fault where scanning comes to is the fault of the text
- `Scan.reported_or_overlooked`: in a whole text, a mark behind a literal is reported or overlooked
-/

namespace Symbolic

namespace Literal

variable {cs literal rest after : List Char} {width : Nat}

/-- The text starts with a precision mark or an exponent mark, of so many bytes. -/
inductive StartsMark : Nat → List Char → Prop where
  | precision (after : List Char) : StartsMark 1 (backquote :: after)
  | exponent (after : List Char) : StartsMark 2 ('*' :: '^' :: after)

/-- The text behind the literal starts with an exponent mark that goes unnoticed: behind the mark
    there is a sign without a digit, or the literal has an exponent already and what is behind the
    mark starts like another one. -/
inductive Overlooked (literal : List Char) : List Char → Prop where
  | sign {sign : Char} {after : List Char} (isSign : sign = '+' ∨ sign = '-')
      (bare : after.head?.any Char.isDigit = false) :
      Overlooked literal ('*' :: '^' :: sign :: after)
  | second {after : List Char} (hasExponent : '*' ∈ literal)
      (continues : Numeral.continuesExponent after = true) :
      Overlooked literal ('*' :: '^' :: after)

/-! ## One literal -/

/-- Before a mark a literal keeps its final point. -/
theorem StartsMark.split?_eq_some_iff (h : StartsMark width rest) :
    split? cs = some (literal, rest) ↔ IsLongest cs literal rest := by
  have hpoint : ∀ after, rest ≠ '.' :: after := by
    cases h <;> simp [backquote]
  rw [← whole?_eq_some_iff, split?, Option.map_eq_some_iff]
  constructor
  · rintro ⟨split, hwhole, hyield⟩
    rw [hwhole]
    by_cases hsplit : ∃ after, split.2 = '.' :: after
    · -- then a point would be left
      obtain ⟨taken, _⟩ := split
      obtain ⟨after, rfl⟩ := hsplit
      have hleft : (yieldPoint (taken, '.' :: after)).2.head? = some '.' := by
        simp only [yieldPoint]
        split <;> rfl
      rw [hyield] at hleft
      obtain ⟨after, hafter⟩ := List.head?_eq_some_iff.mp hleft
      exact absurd hafter (hpoint after)
    · rw [← hyield, yieldPoint_of_not_point (not_exists.mp hsplit)]
  · intro hwhole
    exact ⟨_, hwhole, yieldPoint_of_not_point hpoint⟩

/-- A literal without an exponent can have one added. -/
theorem IsLiteral.append_exponent {digits : List Char} (h : IsLiteral literal)
    (hnone : '*' ∉ literal) (hdigits : IsSigned (IsDigits Char.isDigit) digits) :
    IsLiteral (literal ++ '*' :: '^' :: digits) := by
  obtain ⟨parts, hparts, rfl⟩ := h
  have hexponent : parts.exponent = none := by
    cases hexponent : parts.exponent with
    | none => rfl
    | some exponent => exact absurd (by simp [Parts.text, Parts.exponentText, hexponent]) hnone
  refine ⟨{ parts with exponent := some digits },
    ⟨hparts.base, hparts.mantissa, hparts.precision, ?_⟩, ?_⟩
  · rintro _ ⟨⟩
    exact hdigits
  · simp [Parts.text, Parts.baseText, Parts.precisionText, Parts.exponentText, hexponent]

/-- No exponent stands behind the longest literal, unless that has one. -/
theorem IsLongest.not_isSigned (digits : List Char) {tail : List Char}
    (h : IsLongest cs literal ('*' :: '^' :: (digits ++ tail))) (hnone : '*' ∉ literal) :
    ¬IsSigned (IsDigits Char.isDigit) digits := by
  intro hdigits
  have hlonger := h.longest (literal ++ '*' :: '^' :: digits) ⟨tail, by rw [h.eq]; simp⟩
    (h.isLiteral.append_exponent hnone hdigits)
  rw [List.length_append, List.length_cons] at hlonger
  omega

theorem isDigits_singleton {c : Char} (h : c.isDigit = true) : IsDigits Char.isDigit [c] :=
  ⟨List.cons_ne_nil _ _, by simpa using h⟩

/-- An exponent mark is overlooked just if what follows it starts like an exponent. -/
theorem IsLongest.overlooked_iff (h : IsLongest cs literal ('*' :: '^' :: after)) :
    Overlooked literal ('*' :: '^' :: after) ↔ Numeral.continuesExponent after = true := by
  constructor
  · rintro (⟨rfl | rfl, -⟩ | ⟨-, hcontinues⟩)
    · rfl
    · rfl
    · exact hcontinues
  · intro hcontinues
    by_cases hstar : '*' ∈ literal
    · exact .second hstar hcontinues
    -- a digit behind the mark, or behind the sign there, would make a longer literal
    cases after with
    | nil => cases hcontinues
    | cons first after =>
      -- not a digit, so it has to be a sign
      have hdigit : first.isDigit = false := by
        rw [Bool.eq_false_iff]
        intro hdigit
        exact h.not_isSigned [first] hstar
          ⟨[], by simp [signs], [first], isDigits_singleton hdigit, rfl⟩
      have hsign : first = '+' ∨ first = '-' := by
        simpa [Numeral.continuesExponent, hdigit] using hcontinues
      refine .sign hsign ?_
      cases after with
      | nil => rfl
      | cons second after =>
        rw [List.head?_cons, Option.any_some, Bool.eq_false_iff]
        intro hsecond
        refine h.not_isSigned [first, second] hstar
          ⟨[first], ?_, [second], isDigits_singleton hsecond, rfl⟩
        rcases hsign with rfl | rfl <;> simp [signs]

end Literal

open Literal Text

/-- A numeral before a mark is a fault, unless the mark is overlooked. -/
theorem Numeral.read_of_startsMark {c : Cursor} {literal rest : List Char} {width : Nat}
    (hlongest : IsLongest c.rest literal rest) (hmark : StartsMark width rest) :
    Overlooked literal rest ∧ read c = .ok (.verbatim .number c literal rest) ∨
      ¬Overlooked literal rest ∧ read c = .error (.between c.offset
        (c.offset + byteLength literal + width) .incompleteNumber) := by
  have hsplit := hmark.split?_eq_some_iff.mpr hlongest
  cases hmark with
  | precision after =>
    refine .inr ⟨?_, read_of_mark hsplit⟩
    rintro ⟨⟩
  | exponent after =>
    have hread := read_of_exponent hsplit
    rw [hlongest.overlooked_iff]
    -- behind `*^` a digit or a sign is taken for the start of an exponent
    by_cases hcontinues : continuesExponent after = true
    · exact .inl ⟨hcontinues, by rw [hread, if_pos hcontinues]⟩
    · exact .inr ⟨hcontinues, by rw [hread, if_neg hcontinues]⟩

namespace Scan

/-! ## Whole texts -/

/-- The fault at a place that scanning comes to is the one that it ends with. -/
theorem Visits.fault {expects expects' : Bool} {c place : Cursor} {e : ScanError}
    (h : Visits expects c expects' place) (herror : lexeme expects' place = .error e) :
    (tokensFrom expects c).2 = some e := by
  induction h with
  | here skip => exact fault_of_lexeme_error skip herror
  | later skip ne_nil read _ ih => rw [fault_of_lexeme_ok skip ne_nil read, ih herror]

/-- What starts with a literal is read as a numeral. -/
theorem plain_of_isLongest {c : Cursor} {literal rest : List Char}
    (h : IsLongest c.rest literal rest) : plain c = Numeral.read c := by
  obtain ⟨parts, hparts, rfl⟩ := h.isLiteral
  obtain ⟨_, _, -, -, happend⟩ := exists_of_startsNumeral (Number.startsNumeral_text hparts)
  have hstarts : startsNumeral c.rest = true := by
    rw [h.eq]
    exact happend rest
  exact (plain_of_startsNumeral c.offset hstarts).2

/-- Behind a numeral there is no mark but one that is overlooked. -/
theorem overlooked_of_plain {c : Cursor} {found : Lexeme} (h : plain c = .ok found)
    (hkind : found.kind = .number) : ∃ rest, found = .verbatim .number c found.text rest ∧
      c.rest = found.text ++ rest ∧
      ∀ width, StartsMark width rest → Overlooked found.text rest := by
  obtain ⟨-, literal, rest, hsplit, rfl⟩ := numeral_of_plain h hkind
  refine ⟨rest, rfl, (append_of_split? hsplit).1, fun width hmark => ?_⟩
  have hlongest := hmark.split?_eq_some_iff.mp hsplit
  rcases Numeral.read_of_startsMark hlongest hmark with ⟨hoverlooked, -⟩ | ⟨-, herror⟩
  · exact hoverlooked
  · rw [plain_of_isLongest hlongest, herror] at h
    cases h

/-- In a whole text a numeral leaves no mark behind but one that is overlooked. Every other mark
    behind the longest literal is reported, wherever scanning comes to the literal. -/
theorem reported_or_overlooked (text : String) :
    (∀ t ∈ (tokens text).1, t.kind = .number →
      ∃ before rest, text.toList = before ++ (t.text.toList ++ rest) ∧
        t.loc = .ofOffsets (byteLength before) (byteLength (before ++ t.text.toList)) ∧
        ∀ width, StartsMark width rest → Overlooked t.text.toList rest) ∧
      ∀ place literal rest width, Visits false (.ofText text) false place →
        IsLongest place.rest literal rest → StartsMark width rest → ¬Overlooked literal rest →
        tokenize text = .error (.between place.offset
          (place.offset + byteLength literal + width) .incompleteNumber) := by
  constructor
  · -- the token was read at a place, and the characters before that are those before the token
    intro t ht hkind
    obtain ⟨expects, place, found, hvisits, hread, rfl⟩ := exists_visits_of_mem_tokensFrom ht
    have hfound : found.kind = .number := hkind
    have hplain := plain_of_lexeme hread (by rw [hfound]; decide)
    obtain ⟨rest, hverbatim, hrest, hmarks⟩ := overlooked_of_plain hplain hfound
    obtain ⟨before, hbefore, hoffset⟩ := hvisits.reaches
    have hoffset : place.offset = byteLength before := hoffset.trans (Nat.zero_add _)
    have hnext : found.next.offset = place.offset + byteLength found.text :=
      congrArg (fun found => found.next.offset) hverbatim
    refine ⟨before, rest, ?_, ?_, ?_⟩
    · rw [Lexeme.token, String.toList_ofList, ← hrest]
      exact hbefore
    · rw [Lexeme.token, String.toList_ofList, hnext, hoffset, byteLength_append]
    · rw [Lexeme.token, String.toList_ofList]
      exact hmarks
  · intro place literal rest width hvisits hlongest hmark hnot
    refine tokenize_eq_error_iff.mpr (hvisits.fault ?_)
    show plain place = _
    rw [plain_of_isLongest hlongest]
    rcases Numeral.read_of_startsMark hlongest hmark with ⟨hoverlooked, -⟩ | ⟨-, herror⟩
    · exact absurd hoverlooked hnot
    · exact herror

/-- A letter behind an exponent mark is reported, also behind a sign. -/
theorem reported_exponentMark :
    tokenize "-2*^x" = .error (.between 1 4 .incompleteNumber) := by
  have hvisits : Visits false (.ofText "-2*^x") false ⟨1, ['2', '*', '^', 'x']⟩ := by
    have hskip : Trivia.skip (.ofText "-2*^x") = .ok ⟨0, ['-', '2', '*', '^', 'x']⟩ := by decide
    exact .later hskip (by decide) rfl (.here (by decide))
  have hlongest : IsLongest ['2', '*', '^', 'x'] ['2'] ['*', '^', 'x'] :=
    whole?_eq_some_iff.mp (by decide)
  have hnot : ¬Overlooked ['2'] ['*', '^', 'x'] := by
    rw [hlongest.overlooked_iff]
    decide
  exact (reported_or_overlooked "-2*^x").2 _ _ _ 2 hvisits hlongest (.exponent ['x']) hnot

/-- The mark in `5*^-x` is not reported: behind the numeral `5` there are the operators `*`, `^` and
    `-`. -/
theorem not_reported_bareSign :
    ¬∀ (text : String) (tokens : List Token), tokenize text = .ok tokens →
      ∀ t ∈ tokens, t.kind = .number → ∀ before rest,
        text.toList = before ++ (t.text.toList ++ rest) →
        t.loc = .ofOffsets (byteLength before) (byteLength (before ++ t.text.toList)) →
        ∀ width, ¬StartsMark width rest := by
  intro h
  have hok : tokenize "5*^-x" = .ok [⟨.number, "5", ⟨0, 1⟩⟩, ⟨.times, "*", ⟨1, 2⟩⟩,
      ⟨.power, "^", ⟨2, 3⟩⟩, ⟨.minus, "-", ⟨3, 4⟩⟩, ⟨.symbol, "x", ⟨4, 5⟩⟩,
      .endOfInput ⟨5, 5⟩] := by
    decide +kernel
  exact h _ _ hok _ List.mem_cons_self rfl [] ['*', '^', '-', 'x'] rfl rfl 2 (.exponent _)

end Scan

end Symbolic
