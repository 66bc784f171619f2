import Symbolic.Proofs.Continued.Literal
import Symbolic.Proofs.Scanning.Parts
import Symbolic.Proofs.Scanning.Scans

/-!
# The longest literal

A literal is read part by part, each part as far as it goes, and no choice is taken back once a
later part is read. What is read is the longest literal all the same. Each part alone is the longest
of its kind, and behind a shorter one there is a digit or another character that no later part
starts with, so nothing is to be gained by giving some of it back.

## Key results

- `Munches`, `Munches.andThen`: readers of longest texts, and two of them in a row
- `munches_lead?`, `munches_precision`, `munches_exponent`: the parts of a literal
- `munches_whole?`: reading a literal takes the longest one
- `whole?_eq_some_iff`: a literal is read off a text just if it is the longest one there
- `Numeral.longest_of_read`: the numeral at a place, but for a final point before another one
-/

namespace Symbolic.Literal

open Scan (Avoids)

variable {cs taken rest : List Char}

/-! ## Readers of longest texts -/

/-- What was taken where the text stands before the tail is that text or a longer one, and in that
    case none of the marks is right behind the text. -/
def AtLeast (marks cs tail taken : List Char) : Prop :=
  taken = cs ∨ cs.length < taken.length ∧ Avoids marks tail

namespace AtLeast

variable {marks tail : List Char}

/-- What is taken by a reader of longest texts is no shorter. -/
theorem length_le (h : AtLeast marks cs tail taken) : cs.length ≤ taken.length := by
  rcases h with rfl | ⟨hlonger, -⟩
  · exact Nat.le_refl _
  · exact Nat.le_of_lt hlonger

/-- The same characters before both make no difference. -/
theorem append_left (h : AtLeast marks cs tail taken) (before : List Char) :
    AtLeast marks (before ++ cs) tail (before ++ taken) := by
  refine h.imp (congrArg (before ++ ·)) (And.imp_left fun hlonger => ?_)
  rw [List.length_append, List.length_append]
  omega

/-- More characters may be taken behind a longer text, and where there is no mark. -/
theorem append_right (h : AtLeast marks cs tail taken) (more : List Char)
    (havoids : taken = cs → Avoids marks tail) : AtLeast marks cs tail (taken ++ more) := by
  by_cases hmore : more = []
  · rwa [hmore, List.append_nil]
  · have hpos := List.length_pos_iff.mpr hmore
    have hle := h.length_le
    refine .inr ⟨?_, ?_⟩
    · rw [List.length_append]
      omega
    · rcases h with heq | ⟨-, havoids'⟩
      · exact havoids heq
      · exact havoids'

/-- A text is at least as long as its start. -/
theorem of_append (cs : List Char) {more : List Char} (h : more ≠ [] → Avoids marks tail) :
    AtLeast marks cs tail (cs ++ more) := by
  by_cases hmore : more = []
  · exact .inl (by rw [hmore, List.append_nil])
  · exact append_right (.inl rfl) more fun _ => h hmore

end AtLeast

/-- The reader takes the longest text of the kind. -/
structure Munches (kind : List Char → Prop) (marks : List Char)
    (read : List Char → Option (List Char × List Char)) : Prop where
  append : ∀ {cs taken rest}, read cs = some (taken, rest) → cs = taken ++ rest
  longest : ∀ {cs}, kind cs → ∀ tail, ∃ taken rest,
    read (cs ++ tail) = some (taken, rest) ∧ AtLeast marks cs tail taken

/-- What is read by two readers, one after the other. -/
def andThen (first second : List Char → Option (List Char × List Char)) (cs : List Char) :
    Option (List Char × List Char) :=
  (first cs).bind fun split => (second split.2).map fun split' => (split.1 ++ split'.1, split'.2)

/-- A text of the first kind and then one of the second kind. -/
def Both (kind kind' : List Char → Prop) (cs : List Char) : Prop :=
  ∃ before after, kind before ∧ kind' after ∧ cs = before ++ after

section AndThen

variable {kind kind' : List Char → Prop} {marks marks' : List Char}
  {first second : List Char → Option (List Char × List Char)}

/-- Two readers in a row take the longest text that is of both kinds in a row, if what is of the
    second kind may be nothing and starts with one of the marks otherwise. -/
theorem Munches.andThen (h : Munches kind marks first) (h' : Munches kind' marks' second)
    (hnil : kind' []) (hstarts : ∀ cs, kind' cs → ∀ c ∈ cs.head?, c ∈ marks)
    (hmarks : ∀ c ∈ marks', c ∈ marks) :
    Munches (Both kind kind') marks' (andThen first second) := by
  constructor
  · intro cs taken rest hread
    simp only [Literal.andThen, Option.bind_eq_some_iff, Option.map_eq_some_iff, Prod.exists,
      Prod.mk.injEq] at hread
    obtain ⟨before, middle, hfirst, after, rest', hsecond, rfl, rfl⟩ := hread
    rw [h.append hfirst, h'.append hsecond, List.append_assoc]
  · rintro _ ⟨before, after, hbefore, hafter, rfl⟩ tail
    obtain ⟨taken, middle, hfirst, hlonger⟩ := h.longest hbefore (after ++ tail)
    rcases hlonger with rfl | ⟨hlonger, havoids⟩
    · -- the first part is the given one, and the second is read off the same text
      have hmiddle : middle = after ++ tail :=
        (List.append_cancel_left (h.append hfirst)).symm
      obtain ⟨taken', rest, hsecond, hlonger⟩ := h'.longest hafter tail
      refine ⟨taken ++ taken', rest, ?_, hlonger.append_left taken⟩
      rw [List.append_assoc, Literal.andThen, hfirst, hmiddle, Option.bind_some, hsecond]
      rfl
    · -- behind a shorter first part there is no second part
      obtain rfl : after = [] := by
        rw [List.eq_nil_iff_forall_not_mem]
        intro c hc
        obtain ⟨d, after', rfl⟩ := List.exists_cons_of_ne_nil (List.ne_nil_of_mem hc)
        exact havoids d rfl (hstarts _ hafter d rfl)
      obtain ⟨taken', rest, hsecond, -⟩ := h'.longest hnil middle
      refine ⟨taken ++ taken', rest, ?_, .inr ⟨?_, havoids.mono hmarks⟩⟩
      · rw [List.append_nil, Literal.andThen, show first (before ++ tail) = _ from hfirst,
          Option.bind_some, show second middle = _ from hsecond]
        rfl
      · rw [List.append_nil, List.length_append]
        omega

end AndThen

/-! ## The parts of a literal -/

/-- A text that starts with the mark does not start with another one. -/
theorem avoids_cons {c : Char} {marks : List Char} (h : c ∉ marks) (cs : List Char) :
    Avoids marks (c :: cs) := by
  rintro _ ⟨⟩
  exact h

section Runs

variable {isDigit : Char → Bool}

/-- A run goes on with any further digit. -/
theorem IsRun.snoc {c : Char} (h : IsRun isDigit cs) (hc : isDigit c = true) :
    IsRun isDigit (cs ++ [c]) := by
  have hall : ∀ {digits : List Char}, digits.all isDigit = true →
      (digits ++ [c]).all isDigit = true := by
    intro digits hdigits
    rw [List.all_append, hdigits, List.all_cons, hc]
    rfl
  cases h with
  | whole ne all => exact .whole (by simp) (hall all)
  | point ne all all' =>
    rw [List.append_assoc]
    exact .point (.inr (by simp)) all (hall all')

/-- A run is taken off whole where the next character does not go on with it. -/
theorem IsRun.mantissa?_cons {c : Char} (h : IsRun isDigit cs) (hpoint : isDigit '.' = false)
    (hends : ¬IsRun isDigit (cs ++ [c])) (tail : List Char) :
    mantissa? isDigit (cs ++ c :: tail) = some (cs, c :: tail) := by
  have hnot : isDigit c = false := by
    rw [Bool.eq_false_iff]
    exact fun hc => hends (h.snoc hc)
  cases h with
  | whole ne all =>
    -- after a whole number even a point would go on with the run
    have hne : c ≠ '.' := by
      rintro rfl
      exact hends (.point (.inl ne) all rfl)
    refine (IsRun.whole ne all).mantissa?_append hpoint ?_
    rintro _ ⟨⟩
    exact ⟨hnot, hne⟩
  | point ne all all' =>
    refine mantissa?_point_append ne all all' hpoint ?_
    rintro _ ⟨⟩
    exact hnot

/-- A mantissa is the longest run of digits. -/
theorem munches_mantissa? (marks : List Char) (hpoint : isDigit '.' = false)
    (hmarks : ∀ c ∈ marks, isDigit c = false ∧ c ≠ '.') :
    Munches (IsRun isDigit) marks (mantissa? isDigit) := by
  constructor
  · exact fun h => (append_of_mantissa? h).1
  · intro cs hrun tail
    -- the run is made longer as far as the text allows
    induction tail generalizing cs with
    | nil => exact ⟨cs, [], hrun.mantissa?_append hpoint (fun _ hc => nomatch hc), .inl rfl⟩
    | cons c tail ih =>
      by_cases hgoes : IsRun isDigit (cs ++ [c])
      · obtain ⟨taken, rest, hread, hlonger⟩ := ih hgoes
        rw [← List.append_cons] at hread
        have hlength : cs.length < taken.length := by
          have hle := hlonger.length_le
          rw [List.length_append, List.length_singleton] at hle
          omega
        have hc : c ∉ marks := by
          intro hmem
          obtain ⟨hdigit, hne⟩ := hmarks c hmem
          rcases hgoes.mem (List.mem_append_right _ List.mem_cons_self) with hc | hc
          · cases hdigit.symm.trans hc
          · exact hne hc
        exact ⟨taken, rest, hread, .inr ⟨hlength, avoids_cons hc tail⟩⟩
      · exact ⟨cs, c :: tail, hrun.mantissa?_cons hpoint hgoes tail, .inl rfl⟩

/-- A signed run of digits is the longest of its kind. -/
theorem munches_signed? (marks : List Char)
    (hmarks : ∀ c ∈ marks, c.isDigit = false ∧ c ≠ '.') :
    Munches (IsSigned (IsRun Char.isDigit)) marks signed? := by
  constructor
  · exact append_of_signed?
  · rintro _ ⟨before, hbefore, digits, hdigits, rfl⟩ tail
    obtain ⟨taken, rest, hread, hlonger⟩ :=
      (munches_mantissa? marks (by decide) hmarks).longest hdigits tail
    refine ⟨before ++ taken, rest, ?_, hlonger.append_left before⟩
    rw [signed?, sign_append hbefore hdigits, hread]
    rfl

end Runs

/-- What a literal starts with: decimal digits, or a base with digits and letters. -/
inductive IsLead : List Char → Prop where
  | plain {digits : List Char} (isRun : IsRun Char.isDigit digits) : IsLead digits
  | based {base digits : List Char} (isBase : IsDigits Char.isDigit base)
      (isRun : IsRun Char.isAlphanum digits) : IsLead (base ++ '^' :: '^' :: digits)

/-- The start of a literal is taken off the text. -/
theorem append_of_lead? (h : lead? cs = some (taken, rest)) : cs = taken ++ rest := by
  unfold lead? at h
  cases hbased : based? cs with
  | none =>
    rw [hbased] at h
    exact (append_of_mantissa? h).1
  | some found =>
    rw [hbased] at h
    cases h
    exact (append_of_based? hbased).1

/-- A base ends where the carets start. -/
theorem based?_base_append {base : List Char} (h : IsDigits Char.isDigit base) (rest : List Char) :
    based? (base ++ '^' :: '^' :: rest) = (mantissa? Char.isAlphanum rest).map fun split =>
      (base ++ '^' :: '^' :: split.1, split.2) := by
  have hcaret : ∀ c ∈ ('^' :: '^' :: rest).head?, c.isDigit = false := by
    rintro _ ⟨⟩
    decide
  rw [based?_of_carets (dropWhile_append_of_all h.2 hcaret), takeWhile_append_of_all h.2 hcaret,
    if_neg (by simpa using h.1)]

/-- The digits of a base would be taken without it as well. -/
theorem exists_base_of_based? (h : based? cs = some (taken, rest)) : ∃ base digits,
    taken = base ++ '^' :: '^' :: digits ∧
      mantissa? Char.isDigit cs = some (base, '^' :: '^' :: (digits ++ rest)) := by
  have htext := (append_of_based? h).1
  obtain ⟨hne, after, hafter⟩ := exists_of_based?_ne_none (by rw [h]; simp)
  rw [based?_of_carets hafter, if_neg (by simpa using hne)] at h
  obtain ⟨split, -, hsplit⟩ := Option.map_eq_some_iff.mp h
  obtain ⟨rfl, -⟩ := Prod.mk.inj hsplit
  have hbase : IsDigits Char.isDigit (cs.takeWhile Char.isDigit) := ⟨hne, List.all_takeWhile⟩
  refine ⟨_, split.1, rfl, ?_⟩
  -- what is taken as a base is a mantissa that ends at the carets
  have hmantissa : mantissa? Char.isDigit (cs.takeWhile Char.isDigit ++
      '^' :: '^' :: (split.1 ++ rest)) =
        some (cs.takeWhile Char.isDigit, '^' :: '^' :: (split.1 ++ rest)) := by
    refine hbase.isRun.mantissa?_append (by decide) ?_
    rintro _ ⟨⟩
    exact ⟨by decide, by decide⟩
  rw [← hmantissa]
  exact congrArg _ (by simpa using htext)

/-- What is taken as the start of a literal is the longest that can be. -/
theorem munches_lead? : Munches IsLead [backquote, '*'] lead? := by
  constructor
  · exact append_of_lead?
  · intro cs hlead tail
    cases hlead with
    | plain isRun =>
      obtain ⟨taken, rest, hread, hlonger⟩ :=
        (munches_mantissa? [backquote, '*'] (by decide) (by decide)).longest isRun tail
      cases hbased : based? (cs ++ tail) with
      | none => exact ⟨taken, rest, by rw [lead?_of_based?_eq_none hbased, hread], hlonger⟩
      | some found =>
        -- the digits are those of the base, or only the first ones
        obtain ⟨taken', rest'⟩ := found
        obtain ⟨base, digits, rfl, hmantissa⟩ := exists_base_of_based? hbased
        obtain ⟨rfl, rfl⟩ := Prod.mk.inj (Option.some.inj (hread.symm.trans hmantissa))
        refine ⟨_, rest', by rw [lead?, hbased]; rfl, hlonger.append_right _ ?_⟩
        rintro rfl
        rw [List.append_cancel_left (append_of_mantissa? hread).1]
        exact avoids_cons (by decide) _
    | @based base digits isBase isRun =>
      obtain ⟨taken, rest, hread, hlonger⟩ :=
        (munches_mantissa? [backquote, '*'] (by decide) (by decide)).longest isRun tail
      refine ⟨base ++ '^' :: '^' :: taken, rest, ?_,
        (hlonger.append_left ['^', '^']).append_left base⟩
      have hbased := based?_base_append isBase (digits ++ tail)
      rw [hread] at hbased
      rw [lead?, List.append_assoc, List.cons_append, List.cons_append, hbased]
      rfl

/-- A precision: nothing, a backquote, or one or two of them with a decimal number. -/
def IsPrecision (cs : List Char) : Prop :=
  cs = [] ∨ cs = [backquote] ∨ ∃ mark ∈ [[], [backquote]], ∃ digits,
    IsSigned (IsRun Char.isDigit) digits ∧ cs = backquote :: (mark ++ digits)

/-- What stands before digits is no further mark. -/
theorem avoids_of_signed? (h : signed? cs = some (taken, rest)) : Avoids [backquote, '*'] cs := by
  intro c hc hmark
  obtain ⟨after, rfl⟩ := List.head?_eq_some_iff.mp hc
  simp only [List.mem_cons, List.not_mem_nil, or_false] at hmark
  rcases hmark with rfl | rfl <;> cases h

/-- A precision with digits. -/
theorem precision_of_signed? {mark : List Char} (hmark : mark ∈ [[], [backquote]])
    (h : signed? cs = some (taken, rest)) :
    precision (backquote :: (mark ++ cs)) = (backquote :: (mark ++ taken), rest) := by
  simp only [List.mem_cons, List.not_mem_nil, or_false] at hmark
  rcases hmark with rfl | rfl
  · have hnot : ∀ after, cs ≠ backquote :: after := by
      rintro after rfl
      exact avoids_of_signed? h backquote rfl List.mem_cons_self
    rw [List.nil_append, precision_of_mark hnot, h]
    rfl
  · show precision (backquote :: backquote :: cs) = _
    rw [precision_of_marks, h]
    rfl

/-- A mark is taken in any case, and what it is taken with is no exponent. -/
theorem exists_precision_of_mark (cs : List Char) : ∃ digits rest,
    precision (backquote :: cs) = (backquote :: digits, rest) ∧
      (digits ≠ [] → Avoids ['*'] cs) := by
  by_cases hsecond : ∃ after, cs = backquote :: after
  · obtain ⟨after, rfl⟩ := hsecond
    -- with a second mark, what is left over may be that mark, never an exponent
    have havoids : Avoids ['*'] (backquote :: after) := avoids_cons (by decide) after
    rw [precision_of_marks]
    cases signed? after with
    | none => exact ⟨[], _, rfl, fun _ => havoids⟩
    | some split => exact ⟨_, _, rfl, fun _ => havoids⟩
  · rw [precision_of_mark (not_exists.mp hsecond)]
    cases hsigned : signed? cs with
    | none => exact ⟨[], cs, rfl, fun hne => absurd rfl hne⟩
    | some split =>
      exact ⟨_, _, rfl, fun _ => (avoids_of_signed? hsigned).mono (by simp)⟩

/-- So is what is taken as a precision. -/
theorem munches_precision : Munches IsPrecision ['*'] fun cs => some (precision cs) := by
  constructor
  · intro cs taken rest h
    rw [← append_precision cs, Option.some.inj h]
  · rintro _ (rfl | rfl | ⟨mark, hmark, digits, hdigits, rfl⟩) tail
    · -- no precision, unless a mark follows
      by_cases hnext : ∃ after, tail = backquote :: after
      · obtain ⟨after, rfl⟩ := hnext
        obtain ⟨digits, rest, hread, -⟩ := exists_precision_of_mark after
        exact ⟨_, _, congrArg some hread,
          .of_append [] fun _ => avoids_cons (by decide) after⟩
      · exact ⟨[], tail, congrArg some (precision_of_not_mark (not_exists.mp hnext)), .inl rfl⟩
    · -- a mark alone, unless digits follow
      obtain ⟨digits, rest, hread, havoids⟩ := exists_precision_of_mark tail
      exact ⟨_, _, congrArg some hread, .of_append [backquote] havoids⟩
    · obtain ⟨taken, rest, hread, hlonger⟩ :=
        (munches_signed? ['*'] (by decide)).longest hdigits tail
      refine ⟨backquote :: (mark ++ taken), rest, ?_,
        (hlonger.append_left mark).append_left [backquote]⟩
      rw [List.cons_append, List.append_assoc, precision_of_signed? hmark hread]

/-- An exponent: nothing, or its mark with an integer. -/
def IsExponent (cs : List Char) : Prop :=
  cs = [] ∨ ∃ digits, IsSigned (IsDigits Char.isDigit) digits ∧ cs = '*' :: '^' :: digits

/-- So is what is taken as an exponent. -/
theorem munches_exponent : Munches IsExponent [] fun cs => some (exponent cs) := by
  have hnone : ∀ cs, Avoids [] cs := fun _ _ _ => List.not_mem_nil
  constructor
  · intro cs taken rest h
    rw [← append_exponent cs, Option.some.inj h]
  · rintro _ (rfl | ⟨_, ⟨before, hbefore, digits, hdigits, rfl⟩, rfl⟩) tail
    · exact ⟨_, _, rfl, .of_append [] fun _ => hnone tail⟩
    · -- the digits go on as far as they can
      have hruns : (digits ++ tail).takeWhile Char.isDigit =
          digits ++ tail.takeWhile Char.isDigit :=
        List.takeWhile_append_of_pos (List.all_eq_true.mp hdigits.2)
      have hread : (exponent ('*' :: '^' :: (before ++ digits ++ tail))).1 =
          '*' :: '^' :: (before ++ (digits ++ tail.takeWhile Char.isDigit)) := by
        rw [exponent]
        simp only [sign_append hbefore hdigits.isRun, hruns, List.isEmpty_iff,
          List.append_eq_nil_iff, hdigits.1, false_and, if_false]
      refine ⟨_, _, congrArg some (Prod.ext hread rfl), ?_⟩
      rw [← List.append_assoc]
      exact .of_append ('*' :: '^' :: (before ++ digits)) fun _ => hnone tail

/-! ## Whole literals -/

/-- A literal is read by three readers in a row. -/
theorem whole?_eq_andThen : whole? = andThen lead?
    (andThen (fun cs => some (precision cs)) fun cs => some (exponent cs)) := by
  funext cs
  rw [whole?_eq, andThen]
  cases lead? cs <;> rfl

/-- The text is a literal: that of parts. -/
def IsLiteral (cs : List Char) : Prop :=
  ∃ parts : Parts, parts.WellFormed ∧ cs = parts.text

/-- A literal is made of three parts in a row. -/
theorem IsLiteral.both (h : IsLiteral cs) : Both IsLead (Both IsPrecision IsExponent) cs := by
  obtain ⟨parts, hparts, rfl⟩ := h
  refine ⟨parts.baseText ++ parts.mantissa, parts.precisionText ++ parts.exponentText, ?_,
    ⟨parts.precisionText, parts.exponentText, ?_, ?_, rfl⟩, rfl⟩
  · -- the start: a mantissa with or without a base
    have hmantissa := hparts.mantissa
    unfold Parts.isDigit at hmantissa
    unfold Parts.baseText
    cases hbase : parts.base with
    | none =>
      rw [hbase] at hmantissa
      exact .plain hmantissa
    | some base =>
      rw [hbase] at hmantissa
      rw [Option.elim_some, List.append_assoc]
      exact .based (hparts.base base hbase) hmantissa
  · -- the precision, which may be missing or empty
    unfold Parts.precisionText
    cases hprecision : parts.precision with
    | none => exact .inl rfl
    | some precision =>
      rcases hparts.precision precision hprecision with rfl | ⟨mark, hmark, digits, hdigits, rfl⟩
      · exact .inr (.inl rfl)
      · exact .inr (.inr ⟨mark, hmark, digits, hdigits, rfl⟩)
  · unfold Parts.exponentText
    cases hexponent : parts.exponent with
    | none => exact .inl rfl
    | some exponent => exact .inr ⟨exponent, hparts.exponent exponent hexponent, rfl⟩

/-- What is taken as a literal is the longest that can be. -/
theorem munches_whole? : Munches (Both IsLead (Both IsPrecision IsExponent)) [] whole? := by
  -- what the later parts start with
  have hexponent : ∀ cs, IsExponent cs → ∀ c ∈ cs.head?, c ∈ ['*'] := by
    rintro _ (rfl | ⟨digits, -, rfl⟩)
    · exact fun _ hc => nomatch hc
    · rintro _ ⟨⟩
      exact List.mem_singleton_self _
  have hprecision : ∀ cs, Both IsPrecision IsExponent cs →
      ∀ c ∈ cs.head?, c ∈ [backquote, '*'] := by
    rintro _ ⟨before, after, hbefore, hafter, rfl⟩
    rcases hbefore with rfl | rfl | ⟨mark, -, digits, -, rfl⟩
    · exact fun c hc => List.mem_cons_of_mem _ (hexponent after hafter c hc)
    · rintro _ ⟨⟩
      exact List.mem_cons_self
    · rintro _ ⟨⟩
      exact List.mem_cons_self
  rw [whole?_eq_andThen]
  refine munches_lead?.andThen (munches_precision.andThen munches_exponent (.inl rfl) hexponent
    (by simp)) ⟨[], [], .inl rfl, .inl rfl, rfl⟩ hprecision (by simp)

/-- The text starts with the literal and goes on with the rest, and no longer literal stands at its
    start. -/
structure IsLongest (cs literal rest : List Char) : Prop where
  eq : cs = literal ++ rest
  isLiteral : IsLiteral literal
  longest : ∀ other, other <+: cs → IsLiteral other → other.length ≤ literal.length

/-- Where a literal stands, one that is no shorter is read. -/
theorem IsLiteral.exists_whole? (h : IsLiteral cs) (tail : List Char) :
    ∃ taken rest, whole? (cs ++ tail) = some (taken, rest) ∧ cs.length ≤ taken.length := by
  obtain ⟨taken, rest, hread, hlonger⟩ := munches_whole?.longest h.both tail
  exact ⟨taken, rest, hread, hlonger.length_le⟩

/-- What is read off a text is the longest literal at its start. -/
theorem whole?_eq_some_iff {literal : List Char} :
    whole? cs = some (literal, rest) ↔ IsLongest cs literal rest := by
  constructor
  · intro h
    refine ⟨munches_whole?.append h, exists_parts_of_whole? h, ?_⟩
    -- any literal in front is munched too, so it is no longer than what is read
    rintro other ⟨tail, rfl⟩ hother
    obtain ⟨taken, rest', hread, hle⟩ := hother.exists_whole? tail
    obtain ⟨rfl, -⟩ := Prod.mk.inj (Option.some.inj (hread.symm.trans h))
    exact hle
  · rintro ⟨rfl, hliteral, hlongest⟩
    -- what is read is a literal itself, so neither one is longer than the other
    obtain ⟨taken, rest', hread, hle⟩ := hliteral.exists_whole? rest
    have htext := munches_whole?.append hread
    have hprefix : taken <+: literal ++ rest := ⟨rest', htext.symm⟩
    have hlength := hlongest taken hprefix (exists_parts_of_whole? hread)
    obtain ⟨rfl, rfl⟩ := List.append_inj htext (Nat.le_antisymm hle hlength)
    exact hread

/-- A literal leaves its final point to another one that follows. -/
theorem fst_yieldPoint (literal rest : List Char) : (yieldPoint (literal, rest)).1 =
    if literal.getLast? = some '.' ∧ rest.head? = some '.' then literal.dropLast else literal := by
  by_cases hpoint : ∃ after, rest = '.' :: after
  · obtain ⟨after, rfl⟩ := hpoint
    by_cases hlast : literal.getLast? = some '.'
    · simp [yieldPoint, hlast]
    · simp [yieldPoint, hlast]
  · rw [not_exists] at hpoint
    have hhead : rest.head? ≠ some '.' := fun hhead =>
      (List.head?_eq_some_iff.mp hhead).elim fun after => hpoint after
    rw [yieldPoint_of_not_point hpoint, if_neg fun h => hhead h.2]

/-- Where a numeral starts there is a run of digits. -/
theorem exists_isRun_of_startsNumeral (h : Scan.startsNumeral cs = true) :
    ∃ digits tail, cs = digits ++ tail ∧ IsRun Char.isDigit digits := by
  unfold Scan.startsNumeral at h
  split at h
  · -- a point and a digit
    rename_i rest
    cases rest with
    | nil => cases h
    | cons c rest =>
      have hdigit : [c].all Char.isDigit = true := by simpa using h
      have hempty : [].all Char.isDigit = true := rfl
      exact ⟨['.', c], rest, rfl, .point (.inr (by simp)) hempty hdigit⟩
  · cases cs with
    | nil => cases h
    | cons c rest => exact ⟨[c], rest, rfl, .whole (by simp) (by simpa using h)⟩

/-- What starts like a numeral starts with a literal. -/
theorem exists_isLongest_of_startsNumeral (h : Scan.startsNumeral cs = true) :
    ∃ literal rest, IsLongest cs literal rest := by
  obtain ⟨digits, tail, rfl, hdigits⟩ := exists_isRun_of_startsNumeral h
  have hliteral : IsLiteral digits := by
    refine ⟨⟨none, digits, none, none⟩, ⟨by simp, hdigits, by simp, by simp⟩, ?_⟩
    simp [Parts.text, Parts.baseText, Parts.precisionText, Parts.exponentText]
  obtain ⟨taken, rest, hread, -⟩ := hliteral.exists_whole? tail
  exact ⟨taken, rest, whole?_eq_some_iff.mp hread⟩

end Symbolic.Literal

namespace Symbolic

/-- A numeral is the longest literal at its place, without the final point of that if another point
    follows. -/
theorem Numeral.longest_of_read {c : Cursor} (hstarts : Scan.startsNumeral c.rest = true) :
    ∃ literal rest, Literal.IsLongest c.rest literal rest ∧
      ∀ found, Numeral.read c = .ok found → found.kind = .number ∧
        c.Passes found.text found.next ∧
        found.text = if literal.getLast? = some '.' ∧ rest.head? = some '.' then literal.dropLast
          else literal := by
  obtain ⟨literal, rest, hlongest⟩ := Literal.exists_isLongest_of_startsNumeral hstarts
  refine ⟨literal, rest, hlongest, fun found hread => ?_⟩
  obtain ⟨taken, after, hsplit, rfl⟩ := Scan.numeral_of_read hread
  refine ⟨rfl, Cursor.passes_after (Literal.append_of_split? hsplit).1, ?_⟩
  rw [Literal.split?, Literal.whole?_eq_some_iff.mpr hlongest, Option.map_some] at hsplit
  rw [← Literal.fst_yieldPoint, Option.some.inj hsplit]
  rfl

/-- In `1..x` the longest literal is `1.`, and the numeral is `1`. -/
theorem Numeral.longest_of_points :
    Literal.IsLongest ['1', '.', '.', 'x'] ['1', '.'] ['.', 'x'] ∧
      ∃ found, Numeral.read ⟨0, ['1', '.', '.', 'x']⟩ = .ok found ∧ found.text = ['1'] := by
  obtain ⟨literal, rest, hlongest, hread⟩ :=
    Numeral.longest_of_read (c := ⟨0, ['1', '.', '.', 'x']⟩) (by decide)
  have hwhole : Literal.whole? ['1', '.', '.', 'x'] = some (['1', '.'], ['.', 'x']) := by decide
  obtain ⟨rfl, rfl⟩ := Prod.mk.inj
    (Option.some.inj (hwhole.symm.trans (Literal.whole?_eq_some_iff.mpr hlongest)))
  exact ⟨hlongest, _, rfl, (hread _ rfl).2.2⟩

end Symbolic
