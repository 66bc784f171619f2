import Symbolic.Proofs.FullForm.Magnitude
import Symbolic.Proofs.Scanning.Tokens

/-!
# Literals and their numbers

The token of a number has a text that is made of parts, and these say all there is to say: the text
stands for a number unless the base is out of range, a digit is not below the base, or the exponent
is too large for a word. What is written for the number is a text of parts again, with the base and
the exponent in their shortest form or left out, and so it is a literal of the same number.

## Key results

- `Literal.Parts.baseValue`, `Literal.Parts.exponentValue`: what the parts amount to
- `Number.ofCharacters?_eq_none_iff`: which literals stand for no number
- `literal_of_mem_tokens`: which tokens of a text stand for a number, and that this is written as a
  token of the same number
-/

namespace Symbolic

/-! ## What the parts amount to -/

namespace Literal

/-- The value of decimal digits after an optional sign. -/
def signedValue : List Char → Int
  | '-' :: digits => -(Nat.ofDigitChars 10 digits 0 : Int)
  | '+' :: digits => Nat.ofDigitChars 10 digits 0
  | digits => Nat.ofDigitChars 10 digits 0

/-- The base: ten if there is none. -/
def Parts.baseValue (parts : Parts) : Nat :=
  parts.base.elim 10 fun digits => Nat.ofDigitChars 10 digits 0

/-- The exponent: zero if there is none. -/
def Parts.exponentValue (parts : Parts) : Int :=
  parts.exponent.elim 0 signedValue

/-- A signed run of digits is read as the integer that it writes. -/
theorem integer?_of_isSigned {cs : List Char} (h : IsSigned (IsDigits Char.isDigit) cs) :
    Text.integer? cs = some (signedValue cs) := by
  obtain ⟨before, hbefore, digits, hdigits, rfl⟩ := h
  simp only [signs, List.mem_cons, List.not_mem_nil, or_false] at hbefore
  rcases hbefore with rfl | rfl | rfl
  · show Text.integer? ('+' :: digits) = some (signedValue ('+' :: digits))
    rw [Text.integer?, Text.natural?, Text.digits?_of_isDigits hdigits]
    · rfl
    · rintro _ ⟨⟩
  · show Text.integer? ('-' :: digits) = some (signedValue ('-' :: digits))
    rw [Text.integer?, Text.digits?_of_isDigits hdigits]
    rfl
  · -- digits do not start with a sign
    have hminus := Text.ne_cons_of_isDigits hdigits (show Char.isDigit '-' = false by decide)
    have hplus := Text.ne_cons_of_isDigits hdigits (show Char.isDigit '+' = false by decide)
    rw [List.nil_append, Text.integer?, Text.natural?_of_isDigits hdigits, signedValue]
    · rfl
    · exact hminus
    · exact hplus
    · exact hminus

namespace Parts

variable {parts : Parts}

/-- The base of a literal is a natural number, and ten if it is left out. -/
theorem WellFormed.natural?_base (h : parts.WellFormed) :
    parts.base.elim (some 10) Text.natural? = some parts.baseValue := by
  unfold baseValue
  cases hbase : parts.base with
  | none => rfl
  | some base => exact Text.natural?_of_isDigits (h.base base hbase)

/-- The exponent of a literal is read if it is not too large. -/
theorem WellFormed.exponent?_exponent (h : parts.WellFormed) :
    parts.exponent.elim (some 0) Number.exponent? = Bounded.long? parts.exponentValue := by
  unfold exponentValue
  cases hexponent : parts.exponent with
  | none => rfl
  | some exponent =>
    rw [Option.elim_some, Option.elim_some, Number.exponent?,
      integer?_of_isSigned (h.exponent exponent hexponent), Option.bind_some]

/-- A letter or a digit has a value as a digit. -/
theorem exists_digitValue? {c : Char} (h : c.isAlphanum = true) :
    ∃ d, Text.digitValue? c = some d := by
  unfold Text.digitValue?
  by_cases hdigit : c.isDigit = true
  · exact ⟨_, if_pos hdigit⟩
  · rw [if_neg hdigit]
    by_cases hlower : c.isLower = true
    · exact ⟨_, if_pos hlower⟩
    · -- a letter that is not lower case is upper case
      have hall : (c.isUpper || c.isLower || c.isDigit) = true := h
      have hupper : c.isUpper = true := by simpa [hdigit, hlower] using hall
      exact ⟨_, by rw [if_neg hlower, if_pos hupper]⟩

/-- A point has none. -/
theorem digitValue?_point : Text.digitValue? '.' = none := by
  decide

/-- Some digit of the mantissa is not below the base. -/
def Exceeds (parts : Parts) : Prop :=
  ∃ c ∈ parts.mantissa, ∃ d, Text.digitValue? c = some d ∧ parts.baseValue ≤ d

/-- A mantissa is made of digits and points. -/
theorem WellFormed.eq_point_or_exists (h : parts.WellFormed) {c : Char}
    (hc : c ∈ parts.mantissa) : c = '.' ∨ ∃ d, Text.digitValue? c = some d := by
  rcases h.mantissa.mem hc with hdigit | rfl
  · refine .inr (exists_digitValue? ?_)
    unfold isDigit at hdigit
    split at hdigit
    · exact hdigit
    · simp [Char.isAlphanum, hdigit]
  · exact .inl rfl

/-- A mantissa fits its base unless one of its digits exceeds it. -/
theorem WellFormed.isMantissa_iff (h : parts.WellFormed) :
    Number.isMantissa parts.baseValue parts.mantissa = true ↔ ¬parts.Exceeds := by
  rw [Number.isMantissa, Bool.and_eq_true, List.all_eq_true]
  constructor
  · rintro ⟨-, hall⟩ ⟨c, hc, d, hvalue, hle⟩
    have hdigit := hall c hc
    rw [hvalue, Option.any_some, Bool.or_eq_true, decide_eq_true_eq, beq_iff_eq] at hdigit
    rcases hdigit with rfl | hlt
    · -- a point has no value
      cases digitValue?_point.symm.trans hvalue
    · omega
  · intro hbelow
    refine ⟨by simpa using h.mantissa.ne_nil, fun c hc => ?_⟩
    rw [Bool.or_eq_true, beq_iff_eq]
    refine (h.eq_point_or_exists hc).imp_right ?_
    rintro ⟨d, hvalue⟩
    rw [hvalue, Option.any_some, decide_eq_true_eq]
    exact Nat.lt_of_not_le fun hle => hbelow ⟨c, hc, d, hvalue, hle⟩

end Parts

end Literal

namespace Number

open Literal

variable {source : Parts} {n : Number}

/-! ## Literals that stand for no number -/

/-- An integer is too large for a word outside the range of words. -/
theorem long?_eq_none_iff {k : Int} :
    Bounded.long? k = none ↔ ¬(Int64.minValue.toInt ≤ k ∧ k ≤ Int64.maxValue.toInt) := by
  have hmin : Int64.minValue.toInt = -9223372036854775808 := rfl
  have hmax : Int64.maxValue.toInt = 9223372036854775807 := rfl
  unfold Bounded.long?
  split <;> simp <;> omega

/-- Exactly those literals stand for no number that have a base out of range, a digit that is not
    below the base, or an exponent that does not fit. -/
theorem ofCharacters?_eq_none_iff (h : source.WellFormed) :
    ofCharacters? source.text = none ↔
      ¬(2 ≤ source.baseValue ∧ source.baseValue ≤ 36) ∨ source.Exceeds ∨
        ¬(Int64.minValue.toInt ≤ source.exponentValue ∧
            source.exponentValue ≤ Int64.maxValue.toInt) := by
  have hdigits : source.Exceeds ↔ isMantissa source.baseValue source.mantissa = false := by
    rw [← Bool.not_eq_true, h.isMantissa_iff, not_not]
  rw [ofCharacters?_text h, h.natural?_base, h.exponent?_exponent, ← long?_eq_none_iff, hdigits]
  -- each of the three decides alone
  by_cases hbase : 2 ≤ source.baseValue ∧ source.baseValue ≤ 36
  · cases Bounded.long? source.exponentValue with
    | none => simp [guard, hbase]
    | some exponent =>
      cases hmantissa : isMantissa source.baseValue source.mantissa <;>
        simp [guard, hbase, hmantissa]
  · simp [guard, hbase]

end Number

/-! ## The tokens of a text -/

/-- The text of a number among the tokens is a literal. -/
theorem Scan.exists_parts_of_mem_tokens {text : String} {t : Token} (ht : t ∈ (tokens text).1)
    (hkind : t.kind = .number) :
    ∃ parts : Literal.Parts, parts.WellFormed ∧ t.text.toList = parts.text := by
  obtain ⟨expects, place, found, hlexeme, rfl⟩ := lexeme_of_mem_tokensFrom ht
  have hplain := plain_of_lexeme hlexeme (by rw [show found.kind = .number from hkind]; decide)
  obtain ⟨-, literal, rest, hsplit, rfl⟩ := numeral_of_plain hplain hkind
  obtain ⟨parts, hparts, hliteral⟩ := Literal.exists_parts_of_split? hsplit
  exact ⟨parts, hparts, by rw [Lexeme.token, String.toList_ofList]; exact hliteral⟩

/-- Whatever text a number among the tokens comes from: if it stands for a number, what is written
    for that number is one token and stands for the same number. And it stands for none exactly if
    the base, a digit, or the exponent is out of range. -/
theorem literal_of_mem_tokens {text : String} {t : Token} (ht : t ∈ (Scan.tokens text).1)
    (hkind : t.kind = .number) :
    (∀ n, Number.ofLiteral? t.text = some n →
      tokenize n.text = .ok [⟨.number, n.text, .ofOffsets 0 n.text.utf8ByteSize⟩,
          .endOfInput (.ofOffsets n.text.utf8ByteSize n.text.utf8ByteSize)] ∧
        Number.ofLiteral? n.text = some n) ∧
    (∃ parts : Literal.Parts, parts.WellFormed ∧ t.text.toList = parts.text) ∧
    ∀ parts : Literal.Parts, parts.WellFormed → t.text.toList = parts.text →
      (Number.ofLiteral? t.text = none ↔
        ¬(2 ≤ parts.baseValue ∧ parts.baseValue ≤ 36) ∨ parts.Exceeds ∨
          ¬(Int64.minValue.toInt ≤ parts.exponentValue ∧
            parts.exponentValue ≤ Int64.maxValue.toInt)) := by
  obtain ⟨source, hsource, htext⟩ := Scan.exists_parts_of_mem_tokens ht hkind
  refine ⟨fun n hn => ?_, ⟨source, hsource, htext⟩, fun parts hparts htext' => ?_⟩
  · rw [Number.ofLiteral?, htext] at hn
    exact ⟨Number.tokenize_text hsource hn, Number.ofLiteral?_text hsource hn⟩
  · rw [Number.ofLiteral?, htext']
    exact Number.ofCharacters?_eq_none_iff hparts

/-- A literal with a base and an exponent in a longer form than need be. -/
def hexadecimal : String :=
  "016^^fF.8`20*^+03"

/-- The number of that literal. -/
def hexadecimalNumber : Number :=
  ⟨"fF.8", false, 16, some "20", 3⟩

/-- The parts of `8^^9`. -/
def octalParts : Literal.Parts :=
  ⟨some ['8'], ['9'], none, none⟩

theorem literal_of_mem_tokens_hexadecimal :
    ⟨.number, hexadecimal, .ofOffsets 0 17⟩ ∈ (Scan.tokens hexadecimal).1 ∧
      ⟨.number, "8^^9", .ofOffsets 0 4⟩ ∈ (Scan.tokens "8^^9").1 ∧
      Number.ofLiteral? hexadecimal = some hexadecimalNumber ∧
      hexadecimalNumber.text = "16^^fF.8`20*^3" ∧
      tokenize hexadecimalNumber.text =
        .ok [⟨.number, hexadecimalNumber.text, .ofOffsets 0 14⟩, .endOfInput (.ofOffsets 14 14)] ∧
      Number.ofLiteral? hexadecimalNumber.text = some hexadecimalNumber ∧
      Number.ofLiteral? "8^^9" = none := by
  have hmem : ⟨.number, hexadecimal, .ofOffsets 0 17⟩ ∈ (Scan.tokens hexadecimal).1 := by
    decide +kernel
  have hmem' : ⟨.number, "8^^9", .ofOffsets 0 4⟩ ∈ (Scan.tokens "8^^9").1 := by
    decide +kernel
  have hnumber : Number.ofLiteral? hexadecimal = some hexadecimalNumber := by
    decide +kernel
  have hsize : hexadecimalNumber.text.utf8ByteSize = 14 := by
    decide +kernel
  obtain ⟨htoken, hliteral⟩ := (literal_of_mem_tokens hmem rfl).1 _ hnumber
  rw [hsize] at htoken
  have hparts : octalParts.WellFormed :=
    ⟨by rintro _ ⟨⟩; exact ⟨by decide, by decide⟩, .whole (by decide) (by decide), nofun, nofun⟩
  refine ⟨hmem, hmem', hnumber, by decide +kernel, htoken, hliteral, ?_⟩
  -- a nine is no digit to the base of eight
  refine ((literal_of_mem_tokens hmem' rfl).2.2 octalParts hparts rfl).mpr (.inr (.inl ?_))
  exact ⟨'9', by decide, 9, by decide, by decide⟩

end Symbolic
