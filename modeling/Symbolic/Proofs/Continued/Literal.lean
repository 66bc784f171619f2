import Symbolic.Proofs.Scanning.Boundary

/-!
# Literals of texts that go on

What is taken off a text as a literal is the same when the text goes on, unless all that was left of
the text might have been the start of a further part of the literal. There are few such starts.

## Key results

- `Firm`: what is taken off a text does not depend on how the text goes on
- `firm_mantissa?`, `firm_precision`, `firm_exponent`: the parts of a literal, unless they are open
- `firm_split?`: a whole literal, unless it is open
-/

namespace Symbolic.Literal

open Scan (extend)

/-- What is taken off a text, if anything, is taken off as well when the text goes on. -/
def Firm (split : List Char → Option (List Char × List Char)) (cs : List Char) : Prop :=
  ∀ more, split (cs ++ more) = (split cs).map (extend more)

/-- What can stand between a precision mark and the digits after it. -/
def openSigned : List (List Char) :=
  [[], ['+'], ['-'], ['.'], ['+', '.'], ['-', '.']]

/-- What can stand before the digits that a base is for. -/
def openBased : List (List Char) :=
  [[], ['^'], ['^', '^'], ['^', '^', '.']]

/-- What can stand before the digits of an exponent. -/
def openExponent : List (List Char) :=
  [[], ['*'], ['*', '^'], ['*', '^', '+'], ['*', '^', '-']]

/-- What can be left of a text that may go on with a further part of a literal. -/
def openParts : List (List Char) :=
  openBased ++ openSigned ++ openExponent

/-- A literal that may not be complete, and what is left after it. The literal may have taken one of
    two precision marks. -/
inductive Open : List Char → List Char → Prop where
  | part {literal rest : List Char} (mem : rest ∈ openParts) : Open literal rest
  | marks {literal rest : List Char} (mem : rest ∈ openSigned) :
      Open (literal ++ [backquote]) (backquote :: rest)

variable {isDigit : Char → Bool} {cs rest : List Char}

/-! ## Runs and signs -/

/-- A run that ends within the text ends there when the text goes on. -/
theorem runs_append (h : cs.dropWhile isDigit ≠ []) (more : List Char) :
    (cs ++ more).takeWhile isDigit = cs.takeWhile isDigit ∧
      (cs ++ more).dropWhile isDigit = cs.dropWhile isDigit ++ more := by
  have hlength : ¬(cs.takeWhile isDigit).length = cs.length := by
    have hsum := congrArg List.length (List.takeWhile_append_dropWhile (p := isDigit) (l := cs))
    have hpos := List.length_pos_iff.mpr h
    rw [List.length_append] at hsum
    omega
  rw [List.takeWhile_append, if_neg hlength, List.dropWhile_append,
    if_neg (by rwa [List.isEmpty_iff])]
  exact ⟨rfl, rfl⟩

/-- A text of which nothing is taken and nothing is left is empty. -/
theorem eq_nil_of_takeWhile_of_dropWhile (htake : cs.takeWhile isDigit = [])
    (hdrop : cs.dropWhile isDigit = []) : cs = [] := by
  rw [← List.takeWhile_append_dropWhile (p := isDigit) (l := cs), htake, hdrop]
  rfl

/-- The mantissa of a text with a point behind its digits. -/
theorem mantissa?_of_point (h : cs.dropWhile isDigit = '.' :: rest) : mantissa? isDigit cs =
    if (cs.takeWhile isDigit).isEmpty && (rest.takeWhile isDigit).isEmpty then none
    else some (cs.takeWhile isDigit ++ '.' :: rest.takeWhile isDigit, rest.dropWhile isDigit) := by
  simp only [mantissa?, h]

/-- The mantissa of a text without a point behind its digits. -/
theorem mantissa?_of_not_point (h : ∀ rest, cs.dropWhile isDigit ≠ '.' :: rest) :
    mantissa? isDigit cs = if (cs.takeWhile isDigit).isEmpty then none
      else some (cs.takeWhile isDigit, cs.dropWhile isDigit) := by
  unfold mantissa?
  split
  · exact absurd ‹_› (h _)
  · rfl

/-- A mantissa is firm, takes the whole text, or is missing from a text that may become one. -/
theorem firm_mantissa? (isDigit : Char → Bool) (cs : List Char) :
    Firm (mantissa? isDigit) cs ∨ (∃ taken, mantissa? isDigit cs = some (taken, [])) ∨
      mantissa? isDigit cs = none ∧ (cs = [] ∨ cs = ['.']) := by
  by_cases hdrop : cs.dropWhile isDigit = []
  · -- nothing but digits
    have hmantissa : mantissa? isDigit cs = if (cs.takeWhile isDigit).isEmpty then none
        else some (cs.takeWhile isDigit, cs.dropWhile isDigit) :=
      mantissa?_of_not_point (by simp [hdrop])
    by_cases hempty : cs.takeWhile isDigit = []
    · refine .inr (.inr ⟨by simp [hmantissa, hempty], .inl ?_⟩)
      exact eq_nil_of_takeWhile_of_dropWhile hempty hdrop
    · exact .inr (.inl ⟨cs.takeWhile isDigit, by simp [hmantissa, hempty, hdrop]⟩)
  have hruns := runs_append hdrop
  -- something stands behind the digits: a point that more digits may follow, or the end of the
  -- mantissa
  by_cases hpoint : ∃ rest, cs.dropWhile isDigit = '.' :: rest
  · obtain ⟨rest, hrest⟩ := hpoint
    have hmantissa := mantissa?_of_point hrest
    by_cases hfraction : rest.dropWhile isDigit = []
    · -- a point, and nothing but digits after it
      by_cases hempty : cs.takeWhile isDigit = [] ∧ rest.takeWhile isDigit = []
      · refine .inr (.inr ⟨by simp [hmantissa, hempty], .inr ?_⟩)
        obtain rfl := eq_nil_of_takeWhile_of_dropWhile hempty.2 hfraction
        rw [← List.takeWhile_append_dropWhile (p := isDigit) (l := cs), hempty.1, hrest]
        rfl
      · refine .inr (.inl ⟨cs.takeWhile isDigit ++ '.' :: rest.takeWhile isDigit, ?_⟩)
        rw [hmantissa, if_neg (by simpa using hempty), hfraction]
    · refine .inl fun more => ?_
      have hfirm := runs_append hfraction more
      have hpoint : (cs ++ more).dropWhile isDigit = '.' :: (rest ++ more) := by
        rw [(hruns more).2, hrest]
        rfl
      rw [mantissa?_of_point hpoint, hmantissa, (hruns more).1, hfirm.1, hfirm.2]
      split <;> rfl
  · refine .inl fun more => ?_
    rw [not_exists] at hpoint
    have hpoint' : ∀ rest, (cs ++ more).dropWhile isDigit ≠ '.' :: rest := by
      rw [(hruns more).2]
      obtain ⟨c, after, hafter⟩ := List.exists_cons_of_ne_nil hdrop
      intro rest heq
      rw [hafter] at heq
      exact hpoint after (by rw [hafter, (List.cons.inj heq).1])
    rw [mantissa?_of_not_point hpoint', mantissa?_of_not_point hpoint, (hruns more).1,
      (hruns more).2]
    split <;> rfl

/-- The sign at the start of a text does not change when the text goes on. -/
theorem sign_append_of_ne_nil (h : cs ≠ []) (more : List Char) :
    sign (cs ++ more) = extend more (sign cs) := by
  obtain ⟨c, rest, rfl⟩ := List.exists_cons_of_ne_nil h
  by_cases hplus : c = '+'
  · subst hplus
    rfl
  by_cases hminus : c = '-'
  · subst hminus
    rfl
  -- any other character is no sign
  have hnone : ∀ rest, sign (c :: rest) = ([], c :: rest) := by
    intro rest
    unfold sign
    split
    · rename_i heq
      exact absurd (List.cons.inj heq).1 hplus
    · rename_i heq
      exact absurd (List.cons.inj heq).1 hminus
    · rfl
  rw [List.cons_append, hnone, hnone]
  rfl

/-- A sign is a plus, a minus or nothing. -/
theorem sign_fst_cases (cs : List Char) :
    (sign cs).1 = [] ∨ (sign cs).1 = ['+'] ∨ (sign cs).1 = ['-'] := by
  unfold sign
  split <;> simp

/-- A signed run of digits is firm, takes the whole text, or is missing from a text that may become
    one. -/
theorem firm_signed? (cs : List Char) :
    Firm signed? cs ∨ (∃ taken, signed? cs = some (taken, [])) ∨
      signed? cs = none ∧ cs ∈ openSigned := by
  by_cases hcs : cs = []
  · subst hcs
    exact .inr (.inr ⟨by decide, by decide⟩)
  rcases firm_mantissa? Char.isDigit (sign cs).2 with hfirm | ⟨taken, htaken⟩ | ⟨hnone, hopen⟩
  · refine .inl fun more => ?_
    rw [signed?, signed?, sign_append_of_ne_nil hcs]
    dsimp only [extend]
    rw [hfirm more, Option.map_map, Option.map_map]
    rfl
  · exact .inr (.inl ⟨(sign cs).1 ++ taken, by rw [signed?, htaken]; rfl⟩)
  · -- nothing but a sign, or a sign and a point
    refine .inr (.inr ⟨by rw [signed?, hnone]; rfl, ?_⟩)
    rw [← append_sign cs]
    rcases sign_fst_cases cs with hsign | hsign | hsign <;> rcases hopen with hopen | hopen <;>
      rw [hsign, hopen] <;> decide

/-! ## The parts of a literal -/

/-- The base and the mantissa of a text with two carets behind its digits. -/
theorem based?_of_carets (h : cs.dropWhile Char.isDigit = '^' :: '^' :: rest) : based? cs =
    if (cs.takeWhile Char.isDigit).isEmpty then none
    else (mantissa? Char.isAlphanum rest).map fun split =>
      (cs.takeWhile Char.isDigit ++ '^' :: '^' :: split.1, split.2) := by
  simp only [based?, h]

/-- Without two carets behind the digits there is no base. -/
theorem based?_of_not_carets (h : ∀ rest, cs.dropWhile Char.isDigit ≠ '^' :: '^' :: rest) :
    based? cs = none := by
  unfold based?
  split
  · exact absurd ‹_› (h _)
  · rfl

/-- What a literal starts with: digits after a base, or without one. -/
def lead? (cs : List Char) : Option (List Char × List Char) :=
  based? cs <|> mantissa? Char.isDigit cs

/-- A literal without a base starts with a mantissa. -/
theorem lead?_of_based?_eq_none (h : based? cs = none) : lead? cs = mantissa? Char.isDigit cs := by
  rw [lead?, h]
  rfl

/-- A base is a run of digits before two carets. -/
theorem exists_of_based?_ne_none (h : based? cs ≠ none) :
    cs.takeWhile Char.isDigit ≠ [] ∧ ∃ rest, cs.dropWhile Char.isDigit = '^' :: '^' :: rest := by
  by_cases hcarets : ∃ rest, cs.dropWhile Char.isDigit = '^' :: '^' :: rest
  · obtain ⟨rest, hrest⟩ := hcarets
    refine ⟨fun hempty => h ?_, rest, hrest⟩
    rw [based?_of_carets hrest, hempty]
    rfl
  · exact absurd (based?_of_not_carets (not_exists.mp hcarets)) h

/-- The start of a literal is firm, leaves what a base may go on with, or is missing from a text
    that may become one. -/
theorem firm_lead? (cs : List Char) :
    Firm lead? cs ∨ (∃ taken, ∃ rest ∈ openBased, lead? cs = some (taken, rest)) ∨
      lead? cs = none ∧ (cs = [] ∨ cs = ['.']) := by
  by_cases hbased : ∀ more, based? (cs ++ more) = none
  · -- no base, however the text goes on
    have hlead : ∀ more, lead? (cs ++ more) = mantissa? Char.isDigit (cs ++ more) :=
      fun more => lead?_of_based?_eq_none (hbased more)
    have hlead' : lead? cs = mantissa? Char.isDigit cs := by simpa using hlead []
    rcases firm_mantissa? Char.isDigit cs with hfirm | ⟨taken, htaken⟩ | ⟨hnone, hopen⟩
    · exact .inl fun more => by rw [hlead, hlead', hfirm]
    · exact .inr (.inl ⟨taken, [], by decide, hlead'.trans htaken⟩)
    · exact .inr (.inr ⟨hlead'.trans hnone, hopen⟩)
  obtain ⟨more, hmore⟩ := Classical.not_forall.mp hbased
  obtain ⟨htake, rest, hrest⟩ := exists_of_based?_ne_none hmore
  by_cases hdrop : cs.dropWhile Char.isDigit = []
  · -- all digits, that may be a base
    by_cases hempty : cs.takeWhile Char.isDigit = []
    · obtain rfl := eq_nil_of_takeWhile_of_dropWhile hempty hdrop
      exact .inr (.inr ⟨by decide, .inl rfl⟩)
    · refine .inr (.inl ⟨cs.takeWhile Char.isDigit, [], by decide, ?_⟩)
      rw [lead?_of_based?_eq_none (based?_of_not_carets (by simp [hdrop])),
        mantissa?_of_not_point (by simp [hdrop]), if_neg (by simpa using hempty), hdrop]
  have hruns := runs_append hdrop
  rw [(hruns more).1] at htake
  rw [(hruns more).2] at hrest
  -- a base is possible, so that one caret is there already
  obtain ⟨after, hafter⟩ : ∃ after, cs.dropWhile Char.isDigit = '^' :: after := by
    obtain ⟨c, after, hcons⟩ := List.exists_cons_of_ne_nil hdrop
    rw [hcons] at hrest ⊢
    exact ⟨after, by rw [(List.cons.inj hrest).1]⟩
  have hmantissa : mantissa? Char.isDigit cs =
      some (cs.takeWhile Char.isDigit, cs.dropWhile Char.isDigit) := by
    rw [mantissa?_of_not_point (by simp [hafter]), if_neg (by simpa using htake)]
  cases after with
  | nil =>
    refine .inr (.inl ⟨cs.takeWhile Char.isDigit, ['^'], by decide, ?_⟩)
    rw [lead?_of_based?_eq_none (based?_of_not_carets (by simp [hafter])), hmantissa, hafter]
  | cons c after =>
    obtain rfl : c = '^' := by
      rw [hafter] at hrest
      exact (List.cons.inj (List.cons.inj hrest).2).1
    have hcarets := based?_of_carets hafter
    rw [if_neg (by simpa using htake)] at hcarets
    -- both carets are there, and the mantissa behind them decides
    rcases firm_mantissa? Char.isAlphanum after with hfirm | ⟨taken, htaken⟩ | ⟨hnone, hopen⟩
    · refine .inl fun more => ?_
      have hafter' : (cs ++ more).dropWhile Char.isDigit = '^' :: '^' :: (after ++ more) := by
        rw [(hruns more).2, hafter]
        rfl
      have hmantissa' : mantissa? Char.isDigit (cs ++ more) =
          (mantissa? Char.isDigit cs).map (extend more) := by
        rw [mantissa?_of_not_point (by simp [hafter']), (hruns more).1,
          if_neg (by simpa using htake), (hruns more).2, hmantissa]
        rfl
      rw [lead?, lead?, based?_of_carets hafter', (hruns more).1, if_neg (by simpa using htake),
        hfirm, hcarets, hmantissa']
      cases mantissa? Char.isAlphanum after <;> rfl
    · refine .inr (.inl ⟨cs.takeWhile Char.isDigit ++ '^' :: '^' :: taken, [], by decide, ?_⟩)
      rw [lead?, hcarets, htaken]
      rfl
    · refine .inr (.inl ⟨cs.takeWhile Char.isDigit, cs.dropWhile Char.isDigit, ?_, ?_⟩)
      · rcases hopen with rfl | rfl <;> rw [hafter] <;> decide
      · rw [lead?_of_based?_eq_none (by rw [hcarets, hnone]; rfl), hmantissa]

/-- The precision behind a single mark. -/
theorem precision_of_mark (h : ∀ after, rest ≠ backquote :: after) :
    precision (backquote :: rest) = ((signed? rest).map fun split =>
      (backquote :: split.1, split.2)).getD ([backquote], rest) := by
  unfold precision
  split
  · rename_i heq
    exact absurd (List.cons.inj heq).2 (h _)
  · rename_i heq
    obtain ⟨-, rfl⟩ := List.cons.inj heq
    cases signed? rest <;> rfl
  · rename_i hnot
    exact absurd rfl (hnot _)

/-- The precision behind two marks, which is an accuracy. -/
theorem precision_of_marks (rest : List Char) :
    precision (backquote :: backquote :: rest) = ((signed? rest).map fun split =>
      (backquote :: backquote :: split.1, split.2)).getD ([backquote], backquote :: rest) := by
  simp only [precision, backquote]
  cases signed? rest <;> rfl

/-- Without a mark there is no precision. -/
theorem precision_of_not_mark (h : ∀ after, cs ≠ backquote :: after) :
    precision cs = ([], cs) := by
  unfold precision
  split
  · exact absurd rfl (h _)
  · exact absurd rfl (h _)
  · rfl

/-- A text that does not start with the character does not start with it when it goes on. -/
theorem append_ne_cons {c : Char} (hne : cs ≠ []) (h : ∀ after, cs ≠ c :: after)
    (more after : List Char) : cs ++ more ≠ c :: after := by
  obtain ⟨d, rest, rfl⟩ := List.exists_cons_of_ne_nil hne
  intro heq
  exact h rest (by rw [(List.cons.inj heq).1])

/-- A precision is firm, leaves what a sign may go on with, or has a mark left over behind it. -/
theorem firm_precision (cs : List Char) :
    (∀ more, precision (cs ++ more) = extend more (precision cs)) ∨
      (precision cs).2 ∈ openSigned ∨
      ∃ rest ∈ openSigned, precision cs = ([backquote], backquote :: rest) := by
  by_cases hcs : cs = []
  · exact .inr (.inl (by rw [hcs]; decide))
  by_cases hmark : ∃ rest, cs = backquote :: rest
  case neg =>
    rw [not_exists] at hmark
    refine .inl fun more => ?_
    rw [precision_of_not_mark hmark, precision_of_not_mark (append_ne_cons hcs hmark more)]
    rfl
  -- one mark at least
  obtain ⟨rest, rfl⟩ := hmark
  by_cases hrest : rest = []
  · exact .inr (.inl (by rw [hrest]; decide))
  by_cases hsecond : ∃ after, rest = backquote :: after
  case neg =>
    rw [not_exists] at hsecond
    -- a precision, which goes on as a signed run of digits does
    have hprecision := precision_of_mark hsecond
    rcases firm_signed? rest with hfirm | ⟨taken, htaken⟩ | ⟨hnone, hopen⟩
    · refine .inl fun more => ?_
      rw [List.cons_append, precision_of_mark (append_ne_cons hrest hsecond more), hfirm,
        hprecision]
      cases signed? rest <;> rfl
    · exact .inr (.inl (by rw [hprecision, htaken]; exact .head _))
    · exact .inr (.inl (by rw [hprecision, hnone]; exact hopen))
  case pos =>
    obtain ⟨after, rfl⟩ := hsecond
    -- an accuracy: without digits its second mark is left over
    rcases firm_signed? after with hfirm | ⟨taken, htaken⟩ | ⟨hnone, hopen⟩
    · refine .inl fun more => ?_
      rw [List.cons_append, List.cons_append, precision_of_marks, precision_of_marks, hfirm]
      cases signed? after <;> rfl
    · exact .inr (.inl (by rw [precision_of_marks, htaken]; exact .head _))
    · exact .inr (.inr ⟨after, hopen, by rw [precision_of_marks, hnone]; rfl⟩)

/-- Without its mark there is no exponent. -/
theorem exponent_of_not_mark (h : ∀ after, cs ≠ '*' :: '^' :: after) : exponent cs = ([], cs) := by
  unfold exponent
  split
  · exact absurd rfl (h _)
  · rfl

/-- An exponent is firm, or leaves what one may go on with. -/
theorem firm_exponent (cs : List Char) :
    (∀ more, exponent (cs ++ more) = extend more (exponent cs)) ∨
      (exponent cs).2 ∈ openExponent := by
  by_cases hmark : ∀ more after, cs ++ more ≠ '*' :: '^' :: after
  · have hmark' : ∀ after, cs ≠ '*' :: '^' :: after := by simpa using hmark []
    refine .inl fun more => ?_
    rw [exponent_of_not_mark hmark', exponent_of_not_mark (hmark more)]
    rfl
  · simp only [Classical.not_forall, Classical.not_not] at hmark
    -- the text may start with the mark of an exponent, or does
    obtain ⟨more, after, heq⟩ := hmark
    rcases cs with - | ⟨c, - | ⟨d, rest⟩⟩
    · exact .inr (by decide)
    · obtain rfl := (List.cons.inj heq).1
      exact .inr (by decide)
    obtain ⟨rfl, hafter⟩ := List.cons.inj heq
    obtain ⟨rfl, -⟩ := List.cons.inj hafter
    by_cases hrest : rest = []
    · exact .inr (by rw [hrest]; decide)
    -- the mark is there; what matters is whether anything stands behind its digits
    by_cases hdrop : (sign rest).2.dropWhile Char.isDigit = []
    · refine .inr ?_
      by_cases htake : (sign rest).2.takeWhile Char.isDigit = []
      · -- nothing but a sign
        have hsign := append_sign rest
        rw [eq_nil_of_takeWhile_of_dropWhile htake hdrop, List.append_nil] at hsign
        rcases sign_fst_cases rest with h | h | h <;> rw [← hsign, h] <;> decide
      · simp only [exponent, htake, hdrop, List.isEmpty_iff, if_false]
        decide
    · refine .inl fun more => ?_
      have hruns := runs_append hdrop more
      simp only [List.cons_append, exponent, sign_append_of_ne_nil hrest, extend, hruns]
      split <;> rfl

/-! ## Whole literals -/

/-- A literal is its start, a precision and an exponent, one after the other. -/
theorem whole?_eq (cs : List Char) : whole? cs = (lead? cs).map fun split =>
    (split.1 ++ ((precision split.2).1 ++ (exponent (precision split.2).2).1),
      (exponent (precision split.2).2).2) :=
  rfl

/-- What a base may go on with is no precision. -/
theorem precision_of_openBased : ∀ rest ∈ openBased, precision rest = ([], rest) := by
  decide

/-- What a base may go on with is no exponent. -/
theorem exponent_of_openBased : ∀ rest ∈ openBased, exponent rest = ([], rest) := by
  decide

/-- What a sign may go on with is no exponent. -/
theorem exponent_of_openSigned : ∀ rest ∈ openSigned, exponent rest = ([], rest) := by
  decide

/-- A part that is open leaves nothing that the parts after it take. -/
theorem firm_whole? (cs : List Char) :
    Firm whole? cs ∨ (∃ literal rest, whole? cs = some (literal, rest) ∧ Open literal rest) ∨
      cs = [] ∨ cs = ['.'] := by
  rcases firm_lead? cs with hfirm | ⟨taken, rest, hopen, hlead⟩ | ⟨-, hopen⟩
  · cases hlead : lead? cs with
    | none =>
      refine .inl fun more => ?_
      rw [whole?_eq, whole?_eq, hfirm more, hlead]
      rfl
    | some split =>
      have hwhole : whole? cs = some (split.1 ++ ((precision split.2).1 ++
          (exponent (precision split.2).2).1), (exponent (precision split.2).2).2) := by
        rw [whole?_eq, hlead]
        rfl
      -- each part is firm as long as the parts behind it are all there is to decide
      rcases firm_precision split.2 with hprecision | hopen | ⟨rest, hopen, hprecision⟩
      · rcases firm_exponent (precision split.2).2 with hexponent | hopen
        · refine .inl fun more => ?_
          rw [whole?_eq, hfirm more, hlead, hwhole]
          simp only [Option.map_some, extend, hprecision, hexponent]
        · exact .inr (.inl ⟨_, _, hwhole, .part (List.mem_append_right _ hopen)⟩)
      · rw [exponent_of_openSigned _ hopen] at hwhole
        exact .inr (.inl ⟨_, _, hwhole,
          .part (List.mem_append_left _ (List.mem_append_right _ hopen))⟩)
      · -- no exponent starts with a precision mark
        rw [hprecision, exponent_of_not_mark (by simp [backquote])] at hwhole
        exact .inr (.inl ⟨_, _, hwhole, .marks hopen⟩)
  · refine .inr (.inl ⟨taken, rest, ?_, ?_⟩)
    · rw [whole?_eq, hlead, Option.map_some, precision_of_openBased rest hopen,
        exponent_of_openBased rest hopen, List.append_nil, List.append_nil]
    · exact .part (List.mem_append_left _ (List.mem_append_left _ hopen))
  · exact .inr (.inr hopen)

/-- A literal that no point follows keeps its last point. -/
theorem yieldPoint_of_not_point {split : List Char × List Char}
    (h : ∀ after, split.2 ≠ '.' :: after) : yieldPoint split = split := by
  unfold yieldPoint
  split
  · exact absurd rfl (h _)
  · rfl

/-- Whether a literal gives up its last point is decided by the next character. -/
theorem yieldPoint_extend {split : List Char × List Char} (h : split.2 ≠ []) (more : List Char) :
    yieldPoint (extend more split) = extend more (yieldPoint split) := by
  by_cases hpoint : ∃ after, split.2 = '.' :: after
  · obtain ⟨literal, rest⟩ := split
    obtain ⟨after, rfl⟩ := hpoint
    simp only [yieldPoint, extend, List.cons_append]
    split <;> rfl
  · rw [not_exists] at hpoint
    rw [yieldPoint_of_not_point hpoint, yieldPoint_of_not_point (append_ne_cons h hpoint more)]

/-- The point that a literal leaves goes before another one. -/
theorem Open.yieldPoint {literal : List Char} (h : Open literal rest) :
    yieldPoint (literal, rest) = (literal, rest) ∨ (yieldPoint (literal, rest)).2 = ['.', '.'] := by
  by_cases hpoint : ∃ after, rest = '.' :: after
  · obtain ⟨after, rfl⟩ := hpoint
    cases h with
    | part mem =>
      -- of what may go on, only a single point starts with one
      have hsingle : ∀ rest ∈ openParts, rest.head? = some '.' → rest = ['.'] := by decide
      obtain ⟨-, rfl⟩ := List.cons.inj (hsingle _ mem rfl)
      simp only [Literal.yieldPoint]
      split
      · exact .inr rfl
      · exact .inl rfl
  · rw [not_exists] at hpoint
    exact .inl (yieldPoint_of_not_point hpoint)

/-- A literal is taken off a text that goes on as it is taken off the text, unless what is left of
    that may be the start of a further part, or of an operator that the literal left a point to. -/
theorem firm_split? (cs : List Char) :
    Firm split? cs ∨
      (∃ literal rest, split? cs = some (literal, rest) ∧
        (Open literal rest ∨ rest = ['.', '.'])) ∨
      cs = [] ∨ cs = ['.'] := by
  rcases firm_whole? cs with hfirm | ⟨literal, rest, hwhole, hopen⟩ | hopen
  · cases hwhole : whole? cs with
    | none =>
      refine .inl fun more => ?_
      rw [split?, split?, hfirm more, hwhole]
      rfl
    | some split =>
      have hsplit : split? cs = some (yieldPoint split) := by
        rw [split?, hwhole]
        rfl
      -- the last point is given up for another one, which may still come
      by_cases hrest : split.2 = []
      · rw [yieldPoint_of_not_point (by simp [hrest])] at hsplit
        exact .inr (.inl ⟨_, _, hsplit, .inl (.part (by rw [hrest]; decide))⟩)
      · refine .inl fun more => ?_
        rw [split?, hfirm more, hwhole, hsplit]
        exact congrArg some (yieldPoint_extend hrest more)
  · refine .inr (.inl ⟨(yieldPoint (literal, rest)).1, (yieldPoint (literal, rest)).2, ?_, ?_⟩)
    · rw [split?, hwhole]
      rfl
    · rcases hopen.yieldPoint with hsame | hpoints
      · rw [hsame]
        exact .inl hopen
      · exact .inr hpoints
  · exact .inr (.inr hopen)

end Symbolic.Literal
