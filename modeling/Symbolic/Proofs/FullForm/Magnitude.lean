import Symbolic.Proofs.FullForm.Spelling
import Symbolic.Proofs.Scanning.Parts

/-!
# Numbers that are their own source

A number that was read off a literal is written as the text of parts again: its base unless that
is ten, the digits of the literal, its precision, and its exponent unless that is zero. So what is
written for it is one literal, and the number of that literal is the same.

## Key results

- `ofCharacters?_text`: the number of parts
- `wellFormed_parts`, `ofCharacters?_parts`: the parts that a number is written with
- `tokenize_text`, `ofLiteral?_text`: a number that was read is scanned as it is written
-/

namespace Symbolic

/-! ## Digits -/

namespace Text

variable {cs : List Char}

/-- A decimal digit has a value below ten in every base. -/
theorem digitValue?_of_isDigit {c : Char} (h : c.isDigit = true) :
    digitValue? c = some (c.toNat - '0'.toNat) ∧ c.toNat - '0'.toNat < 10 := by
  have hrange := h
  simp only [Char.isDigit, Bool.and_eq_true, decide_eq_true_eq, ge_iff_le,
    UInt32.le_iff_toNat_le] at hrange
  have hle : c.toNat ≤ 57 := hrange.2
  have hzero : '0'.toNat = 48 := rfl
  exact ⟨by rw [digitValue?, if_pos h], by omega⟩

/-- Decimal digits are read as the number that they write. -/
theorem digitsValue?_of_all (h : cs.all Char.isDigit = true) :
    digitsValue? 10 cs = some (Nat.ofDigitChars 10 cs 0) := by
  -- by induction, behind any digits that were read already
  have key : ∀ n, cs.foldlM (fun n c => do
      let d ← digitValue? c
      if d < 10 then some (10 * n + d) else none) n = some (Nat.ofDigitChars 10 cs n) := by
    induction cs with
    | nil => exact fun _ => rfl
    | cons c cs ih =>
      intro n
      rw [List.all_cons, Bool.and_eq_true] at h
      obtain ⟨hvalue, hlt⟩ := digitValue?_of_isDigit h.1
      simp only [List.foldlM_cons, hvalue, Option.bind_eq_bind, Option.bind_some, if_pos hlt]
      exact ih h.2 _
  exact key 0

/-- A run of decimal digits is read as the number that it writes. -/
theorem digits?_of_isDigits (h : Literal.IsDigits Char.isDigit cs) :
    digits? cs = some (Nat.ofDigitChars 10 cs 0) := by
  rw [digits?, if_neg (by simpa using h.1), digitsValue?_of_all h.2]

/-- Digits start with no sign. -/
theorem ne_cons_of_isDigits (h : Literal.IsDigits Char.isDigit cs) {c : Char}
    (hc : c.isDigit = false) (rest : List Char) : cs ≠ c :: rest := by
  rintro rfl
  have hall := h.2
  rw [List.all_cons, hc] at hall
  cases hall

/-- A run of decimal digits is read as a natural number. -/
theorem natural?_of_isDigits (h : Literal.IsDigits Char.isDigit cs) :
    natural? cs = some (Nat.ofDigitChars 10 cs 0) := by
  unfold natural?
  split
  · exact absurd rfl (ne_cons_of_isDigits h (by decide) _)
  · exact digits?_of_isDigits h

/-- A natural number is written as a run of digits. -/
theorem isDigits_naturalText (n : Nat) : Literal.IsDigits Char.isDigit (naturalText n) :=
  ⟨Nat.toDigits_ne_nil, List.all_eq_true.mpr fun _ hc =>
    Nat.isDigit_of_mem_toDigits (by decide) (by decide) hc⟩

/-- The digits of a natural number add up to it. -/
theorem ofDigitChars_naturalText (n : Nat) : Nat.ofDigitChars 10 (naturalText n) 0 = n :=
  Nat.ofDigitChars_toDigits (by decide) (by decide)

/-- The text of a natural number is read back. -/
theorem natural?_naturalText (n : Nat) : natural? (naturalText n) = some n := by
  rw [natural?_of_isDigits (isDigits_naturalText n), ofDigitChars_naturalText]

/-- The text of an integer is read back. -/
theorem integer?_integerText (k : Int) : integer? (integerText k) = some k := by
  cases k with
  | ofNat n =>
    unfold integer? integerText
    split
    · rename_i heq
      -- digits do not start with a sign
      exact absurd heq (ne_cons_of_isDigits (isDigits_naturalText n) (by decide) _)
    · rw [natural?_naturalText]
      rfl
  | negSucc n =>
    rw [integerText, integer?, digits?_of_isDigits (isDigits_naturalText _),
      ofDigitChars_naturalText]
    rfl

/-! ## Marks within a text -/

variable {m : Char} {mark before : List Char}

/-- A mark does not start within a text without its first character. -/
theorem splitOnce?_append (h : m ∉ before) (cs : List Char) :
    splitOnce? (m :: mark) (before ++ cs) =
      (splitOnce? (m :: mark) cs).map fun split => (before ++ split.1, split.2) := by
  induction before with
  | nil => simp
  | cons c before ih =>
    rw [List.mem_cons, not_or] at h
    rw [List.cons_append, splitOnce?, strip?, if_neg h.1, ih h.2, Option.map_map]
    rfl

/-- A text without the first character of a mark is not split. -/
theorem splitOnce?_of_notMem (h : m ∉ cs) : splitOnce? (m :: mark) cs = none := by
  have happend : splitOnce? (m :: mark) (cs ++ []) = _ := splitOnce?_append h []
  rw [List.append_nil] at happend
  rw [happend]
  rfl

/-- A text is cut behind characters that a mark does not start with. -/
theorem cut_append (h : m ∉ before) (cs : List Char) :
    cut (m :: mark) (before ++ cs) =
      (before ++ (cut (m :: mark) cs).1, (cut (m :: mark) cs).2) := by
  unfold cut
  rw [splitOnce?_append h]
  cases splitOnce? (m :: mark) cs <;> rfl

end Text

/-! ## The number of parts -/

namespace Literal

variable {cs : List Char} {parts : Parts}

/-- The characters of a signed run are digits, points and signs. -/
theorem IsSigned.mem (h : IsSigned (IsRun Char.isDigit) cs) {c : Char} (hc : c ∈ cs) :
    c ∈ ['+', '-', '.'] ∨ c.isDigit = true := by
  obtain ⟨before, hbefore, digits, hdigits, rfl⟩ := h
  simp only [signs, List.mem_cons, List.not_mem_nil, or_false] at hbefore ⊢
  rcases List.mem_append.mp hc with hmem | hmem
  · rcases hbefore with rfl | rfl | rfl <;> simp_all
  · rcases hdigits.mem hmem with hdigit | rfl <;> simp_all

/-- What stands behind a sign may be weakened. -/
theorem IsSigned.imp {P Q : List Char → Prop} (h : IsSigned P cs) (himp : ∀ cs, P cs → Q cs) :
    IsSigned Q cs := by
  obtain ⟨before, hbefore, digits, hdigits, rfl⟩ := h
  exact ⟨before, hbefore, digits, himp digits hdigits, rfl⟩

namespace Parts

/-- No mark but a backquote stands in the digits. -/
theorem WellFormed.notMem_mantissa (h : parts.WellFormed) {c : Char}
    (hc : c ∈ ['^', '*', backquote]) : c ∉ parts.mantissa := by
  have hnot : c.isAlphanum = false ∧ c.isDigit = false ∧ c ≠ '.' := by
    simp only [List.mem_cons, List.not_mem_nil, or_false] at hc
    rcases hc with rfl | rfl | rfl <;> decide
  intro hmem
  -- a mantissa is made of digits and points
  rcases h.mantissa.mem hmem with hdigit | hpoint
  · unfold isDigit at hdigit
    split at hdigit
    · rw [hnot.1] at hdigit
      cases hdigit
    · rw [hnot.2.1] at hdigit
      cases hdigit
  · exact hnot.2.2 hpoint

/-- The precision of a literal holds no mark of its base or its exponent. -/
theorem WellFormed.notMem_precisionText (h : parts.WellFormed) {c : Char} (hc : c ∈ ['^', '*']) :
    c ∉ parts.precisionText := by
  have hnot : c ∉ ['+', '-', '.'] ∧ c.isDigit = false ∧ c ≠ backquote := by
    simp only [List.mem_cons, List.not_mem_nil, or_false] at hc
    rcases hc with rfl | rfl <;> decide
  unfold precisionText
  cases hprecision : parts.precision with
  | none => simp
  | some precision =>
    rw [Option.elim_some, List.mem_cons, not_or]
    refine ⟨hnot.2.2, fun hmem => ?_⟩
    -- the precision is empty, or a signed run of digits behind one more mark at most
    rcases h.precision precision hprecision with rfl | ⟨mark, hmark, digits, hdigits, rfl⟩
    · cases hmem
    · rcases List.mem_append.mp hmem with hmem | hmem
      · have : c = backquote := by
          simp only [List.mem_cons, List.not_mem_nil, or_false] at hmark
          rcases hmark with rfl | rfl
          · cases hmem
          · simpa using hmem
        exact hnot.2.2 this
      · rcases hdigits.mem hmem with hsign | hdigit
        · exact hnot.1 hsign
        · rw [hnot.2.1] at hdigit
          cases hdigit

/-- The exponent of a literal holds no caret. -/
theorem WellFormed.caret_notMem_exponent (h : parts.WellFormed) {exponent : List Char}
    (hexponent : parts.exponent = some exponent) : '^' ∉ exponent := by
  intro hmem
  have hsigned := (h.exponent exponent hexponent).imp fun _ h => h.isRun
  rcases hsigned.mem hmem with hsign | hdigit
  · revert hsign
    decide
  · cases hdigit

/-- Only a base stands before two carets. -/
theorem WellFormed.splitOnce?_text (h : parts.WellFormed) :
    Text.splitOnce? ['^', '^'] parts.text = parts.base.map fun base =>
      (base, parts.mantissa ++ (parts.precisionText ++ parts.exponentText)) := by
  unfold text baseText
  cases hbase : parts.base with
  | some base =>
    have hcaret : '^' ∉ base := by
      intro hmem
      cases List.all_eq_true.mp (h.base base hbase).2 '^' hmem
    rw [Option.elim_some, List.append_assoc, List.append_assoc, Text.splitOnce?_append hcaret]
    simp [Text.splitOnce?, Text.strip?]
  | none =>
    have hfront : '^' ∉ parts.mantissa ++ parts.precisionText := by
      rw [List.mem_append, not_or]
      exact ⟨h.notMem_mantissa (by decide), h.notMem_precisionText (by decide)⟩
    rw [Option.elim_none, List.nil_append, ← List.append_assoc, Text.splitOnce?_append hfront]
    unfold exponentText
    cases hexponent : parts.exponent with
    | none => rfl
    | some exponent =>
      -- the caret of the exponent is followed by a digit or a sign
      have hcaret := h.caret_notMem_exponent hexponent
      have hstrip : Text.strip? ['^'] exponent = none := by
        rw [Option.eq_none_iff_forall_not_mem]
        intro rest hrest
        rw [Text.strip?_eq_some_iff.mp hrest] at hcaret
        exact hcaret (by simp)
      simp [Text.splitOnce?, Text.strip?, hstrip, Text.splitOnce?_of_notMem hcaret]

/-- A literal is cut where its exponent starts. -/
theorem WellFormed.cut_exponent (h : parts.WellFormed) :
    Text.cut ['*', '^'] (parts.mantissa ++ (parts.precisionText ++ parts.exponentText)) =
      (parts.mantissa ++ parts.precisionText, parts.exponent) := by
  have hfront : '*' ∉ parts.mantissa ++ parts.precisionText := by
    rw [List.mem_append, not_or]
    exact ⟨h.notMem_mantissa (by decide), h.notMem_precisionText (by decide)⟩
  have hexponent : Text.cut ['*', '^'] parts.exponentText = ([], parts.exponent) := by
    unfold exponentText
    cases parts.exponent with
    | none => rfl
    | some exponent => simp [Text.cut, Text.splitOnce?, Text.strip?]
  rw [← List.append_assoc, Text.cut_append hfront, hexponent, List.append_nil]

/-- A literal without its exponent is cut where its precision starts. -/
theorem WellFormed.cut_precision (h : parts.WellFormed) :
    Text.cut ['\u0060'] (parts.mantissa ++ parts.precisionText) =
      (parts.mantissa, parts.precision) := by
  have hprecision : Text.cut ['\u0060'] parts.precisionText = ([], parts.precision) := by
    unfold precisionText
    cases parts.precision with
    | none => rfl
    | some precision => simp [Text.cut, Text.splitOnce?, Text.strip?, backquote]
  have hbackquote : '\u0060' ∉ parts.mantissa := h.notMem_mantissa (by decide)
  rw [Text.cut_append hbackquote, hprecision, List.append_nil]

end Parts

end Literal

namespace Number

open Literal

variable {source : Parts} {n : Number}

/-- The parts of a literal are those of its number. -/
theorem ofCharacters?_text (h : source.WellFormed) :
    ofCharacters? source.text = (do
      let base ← source.base.elim (some 10) Text.natural?
      guard (2 ≤ base ∧ base ≤ 36)
      let exponent ← source.exponent.elim (some 0) exponent?
      guard (isMantissa base source.mantissa)
      some ⟨.ofList source.mantissa, false, .ofNat base, source.precision.map .ofList,
        exponent⟩) := by
  unfold ofCharacters?
  rw [h.splitOnce?_text]
  -- a literal without a base is split nowhere, any other at its base
  cases hbase : source.base with
  | none =>
    have htext : source.text =
        source.mantissa ++ (source.precisionText ++ source.exponentText) := by
      simp [Parts.text, Parts.baseText, hbase]
    simp only [Option.map_none, Option.elim_none, htext, Option.bind_eq_bind, Option.bind_some,
      h.cut_exponent, h.cut_precision]
  | some base =>
    simp only [Option.map_some, Option.elim_some]
    cases Text.natural? base with
    | none => rfl
    | some value =>
      simp only [Option.map_some, Option.bind_eq_bind, Option.bind_some, h.cut_exponent,
        h.cut_precision]

/-- A literal has no sign. -/
theorem negative_of_ofCharacters? {cs : List Char} (h : ofCharacters? cs = some n) :
    n.negative = false := by
  unfold ofCharacters? at h
  split at h
  all_goals
    simp only [Option.bind_eq_bind, Option.bind_eq_some_iff, Option.some.injEq] at h
    obtain ⟨_, -, _, -, _, -, _, -, rfl⟩ := h
    rfl

/-- A literal is read as a number just if each of its parts is read. -/
theorem ofCharacters?_text_eq_some_iff (h : source.WellFormed) :
    ofCharacters? source.text = some n ↔
      ∃ base exponent, source.base.elim (some 10) Text.natural? = some base ∧
        (2 ≤ base ∧ base ≤ 36) ∧ source.exponent.elim (some 0) exponent? = some exponent ∧
        isMantissa base source.mantissa = true ∧
        ⟨.ofList source.mantissa, false, .ofNat base, source.precision.map .ofList, exponent⟩ =
          n := by
  rw [ofCharacters?_text h]
  simp [guard, Option.bind_eq_some_iff]

/-! ## The parts that a number is written with -/

/-- The parts that a number is written with after its sign. -/
def parts (n : Number) : Parts where
  base := if n.base = 10 then none else some (Text.naturalText n.base.toNat)
  mantissa := n.digits.toList
  precision := n.precision.map String.toList
  exponent := if n.exponent = 0 then none else some (Text.integerText n.exponent.toInt)

/-- A number without a sign is written as the text of its parts. -/
theorem characters_eq_text (h : n.negative = false) : n.characters = n.parts.text := by
  obtain ⟨digits, negative, base, precision, exponent⟩ := n
  obtain rfl : negative = false := h
  unfold characters Parts.text Parts.baseText Parts.precisionText Parts.exponentText parts
  by_cases hbase : base = 10 <;> by_cases hexponent : exponent = 0 <;> cases precision <;>
    simp [hbase, hexponent, backquote]

/-- An integer is written as a run of digits behind a sign, if it has one. -/
theorem isSigned_integerText (k : Int) :
    IsSigned (IsDigits Char.isDigit) (Text.integerText k) := by
  cases k with
  | ofNat n => exact ⟨[], by simp [signs], _, Text.isDigits_naturalText n, rfl⟩
  | negSucc n => exact ⟨['-'], by simp [signs], _, Text.isDigits_naturalText (n + 1), rfl⟩

/-- In base ten every digit is a decimal one. -/
theorem isDigit_of_isMantissa {cs : List Char} (h : isMantissa 10 cs = true) {c : Char}
    (hc : c ∈ cs) : c = '.' ∨ c.isDigit = true := by
  rw [isMantissa, Bool.and_eq_true] at h
  have hdigit := List.all_eq_true.mp h.2 c hc
  rw [Bool.or_eq_true, beq_iff_eq] at hdigit
  refine hdigit.imp_right fun hvalue => ?_
  unfold Text.digitValue? at hvalue
  split at hvalue
  · assumption
  · -- a letter counts for ten or more
    split at hvalue
    · simp only [Option.any_some, decide_eq_true_eq] at hvalue
      omega
    · split at hvalue
      · simp only [Option.any_some, decide_eq_true_eq] at hvalue
        omega
      · cases hvalue

/-- The parts of a number that was read off a literal are those of a literal. -/
theorem wellFormed_parts (hsource : source.WellFormed)
    (h : ofCharacters? source.text = some n) : n.parts.WellFormed := by
  obtain ⟨base, exponent, hbase, hrange, hexponent, hmantissa, rfl⟩ :=
    (ofCharacters?_text_eq_some_iff hsource).mp h
  refine ⟨?_, ?_, ?_, ?_⟩
  · intro digits hdigits
    simp only [parts] at hdigits
    split at hdigits
    · cases hdigits
    · cases hdigits
      exact Text.isDigits_naturalText _
  · -- the digits of the mantissa: letters may be among them behind a base only
    have halphanum : ∀ c, source.isDigit c = true → c.isAlphanum = true := by
      intro c hdigit
      unfold Parts.isDigit at hdigit
      split at hdigit
      · exact hdigit
      · simp [Char.isAlphanum, hdigit]
    simp only [parts, String.toList_ofList, Parts.isDigit]
    refine hsource.mantissa.mono fun c hc hdigit => ?_
    by_cases hten : UInt32.ofNat base = 10
    · -- without a base the digits have to be decimal ones
      obtain rfl : base = 10 := by
        have hword := congrArg UInt32.toNat hten
        rw [UInt32.toNat_ofNat', Nat.mod_eq_of_lt (by omega)] at hword
        exact hword
      rcases isDigit_of_isMantissa hmantissa hc with rfl | hdecimal
      · cases halphanum _ hdigit
      · exact hdecimal
    · simpa [hten] using halphanum c hdigit
  · intro digits hdigits
    have hprecision : (source.precision.map String.ofList).map String.toList =
        source.precision := by
      simp [Function.comp_def]
    simp only [parts, hprecision] at hdigits
    exact hsource.precision digits hdigits
  · intro digits hdigits
    simp only [parts] at hdigits
    split at hdigits
    · cases hdigits
    · cases hdigits
      exact isSigned_integerText _

/-- What a number is written with is read as the same number. -/
theorem ofCharacters?_parts (hsource : source.WellFormed)
    (h : ofCharacters? source.text = some n) : ofCharacters? n.parts.text = some n := by
  have hparts := wellFormed_parts hsource h
  obtain ⟨base, exponent, hbase, hrange, hexponent, hmantissa, rfl⟩ :=
    (ofCharacters?_text_eq_some_iff hsource).mp h
  -- a base of at most 36 is the same as a machine word
  have hword : (UInt32.ofNat base).toNat = base := by
    rw [UInt32.toNat_ofNat', Nat.mod_eq_of_lt (by omega)]
  refine (ofCharacters?_text_eq_some_iff hparts).mpr ⟨base, exponent, ?_, hrange, ?_, ?_, ?_⟩
  · simp only [parts]
    split
    · rename_i hten
      rw [← hword, hten]
      rfl
    · rw [Option.elim_some, hword, Text.natural?_naturalText]
  · simp only [parts]
    split
    · rename_i hzero
      rw [hzero]
      rfl
    · rw [Option.elim_some, exponent?, Text.integer?_integerText, Option.bind_some,
        Bounded.long?_toInt]
  · simpa [parts] using hmantissa
  · simp [parts, Function.comp_def]

/-! ## Numbers as tokens -/

/-- A numeral starts at a digit. -/
theorem startsNumeral_of_isDigit {c : Char} (hc : c.isDigit = true) (cs : List Char) :
    Scan.startsNumeral (c :: cs) = true := by
  unfold Scan.startsNumeral
  split
  · rename_i heq
    obtain ⟨rfl, -⟩ := List.cons.inj heq
    cases hc
  · exact hc

/-- A numeral starts at a run of digits, whatever follows. -/
theorem startsNumeral_append_of_isDigits {digits : List Char} (h : IsDigits Char.isDigit digits)
    (rest : List Char) : Scan.startsNumeral (digits ++ rest) = true := by
  obtain ⟨hne, hall⟩ := h
  cases digits with
  | nil => exact absurd rfl hne
  | cons c digits =>
    rw [List.all_cons, Bool.and_eq_true] at hall
    exact startsNumeral_of_isDigit hall.1 _

/-- A numeral starts where a literal does. -/
theorem startsNumeral_text (hsource : source.WellFormed) :
    Scan.startsNumeral source.text = true := by
  have hrun := hsource.mantissa
  unfold Parts.text Parts.baseText
  cases hbase : source.base with
  | some base =>
    rw [Option.elim_some, List.append_assoc, List.append_assoc]
    exact startsNumeral_append_of_isDigits (hsource.base base hbase) _
  | none =>
    simp only [Parts.isDigit, hbase, Option.isSome_none, Bool.false_eq_true, if_false] at hrun
    rw [Option.elim_none, List.nil_append]
    generalize source.mantissa = mantissa at hrun
    cases hrun with
    | whole ne all => exact startsNumeral_append_of_isDigits ⟨ne, all⟩ _
    | @point digits fraction ne all all' =>
      by_cases hdigits : digits = []
      · -- a point first needs a digit after it
        subst hdigits
        have hfraction : fraction ≠ [] := ne.resolve_left fun hne => hne rfl
        obtain ⟨c, fraction, rfl⟩ := List.exists_cons_of_ne_nil hfraction
        rw [List.all_cons, Bool.and_eq_true] at all'
        exact all'.1
      · rw [List.append_assoc]
        exact startsNumeral_append_of_isDigits ⟨hdigits, all⟩ _

/-- What is written for the number of a literal is one token, from the start of the text to its
    end. -/
theorem tokenize_text (hsource : source.WellFormed) (h : ofCharacters? source.text = some n) :
    tokenize n.text =
      .ok [⟨.number, n.text, .ofOffsets 0 n.text.utf8ByteSize⟩,
        .endOfInput (.ofOffsets n.text.utf8ByteSize n.text.utf8ByteSize)] := by
  have hparts := wellFormed_parts hsource h
  have htext : n.text = .ofList n.parts.text := by
    rw [text, characters_eq_text (negative_of_ofCharacters? h)]
  have hsize : Text.byteLength n.parts.text = n.text.utf8ByteSize := by
    rw [← Text.byteLength_toList, htext, String.toList_ofList]
  -- the whole text is one literal, and the text ends behind it
  have hscans := Scan.scans_literal Scan.atBoundary_nil (startsNumeral_text hparts)
    hparts.split?_text 0
  have hcharacters : n.parts.text ++ [] = n.text.toList := by
    rw [List.append_nil, htext, String.toList_ofList]
  rw [hcharacters, Nat.zero_add, hsize, ← htext] at hscans
  exact Scan.tokenize_of_scans hscans

/-- What is written for the number of a literal is a literal of the same number. -/
theorem ofLiteral?_text (hsource : source.WellFormed) (h : ofCharacters? source.text = some n) :
    ofLiteral? n.text = some n := by
  rw [ofLiteral?, text, String.toList_ofList, characters_eq_text (negative_of_ofCharacters? h)]
  exact ofCharacters?_parts hsource h

/-- A number that was read off a literal is scanned as it is written. -/
theorem isMagnitude_of_ofCharacters? (hsource : source.WellFormed)
    (h : ofCharacters? source.text = some n) : Expr.IsMagnitude n :=
  ⟨_, _, tokenize_text hsource h, rfl, ofLiteral?_text hsource h⟩

/-- A number that was read off the whole of a literal is a magnitude. -/
theorem isMagnitude_of_split? {literal tail : List Char}
    (hsplit : split? (literal ++ tail) = some (literal, tail))
    (h : ofCharacters? literal = some n) : Expr.IsMagnitude n := by
  obtain ⟨source, hsource, rfl⟩ := exists_parts_of_split? hsplit
  exact isMagnitude_of_ofCharacters? hsource h

/-- Decimal digits are a literal by themselves. -/
theorem ofCharacters?_of_isDigits {digits : List Char} (hdigits : IsDigits Char.isDigit digits) :
    ∃ source : Parts, source.WellFormed ∧ source.text = digits ∧
      ofCharacters? digits = some ⟨.ofList digits, false, 10, none, 0⟩ := by
  -- a run of digits is a literal with a mantissa only
  let source : Parts := ⟨none, digits, none, none⟩
  have hsource : source.WellFormed := ⟨nofun, hdigits.isRun, nofun, nofun⟩
  have htext : source.text = digits := by
    simp [source, Parts.text, Parts.baseText, Parts.precisionText, Parts.exponentText]
  refine ⟨source, hsource, htext, ?_⟩
  have hmantissa : isMantissa 10 digits = true := by
    rw [isMantissa, Bool.and_eq_true, List.all_eq_true]
    refine ⟨by simpa using hdigits.1, fun c hc => ?_⟩
    obtain ⟨hvalue, hlt⟩ := Text.digitValue?_of_isDigit (List.all_eq_true.mp hdigits.2 c hc)
    rw [hvalue, Option.any_some, decide_eq_true hlt, Bool.or_true]
  rw [← htext]
  refine (ofCharacters?_text_eq_some_iff hsource).mpr ⟨10, 0, rfl, by decide, rfl, hmantissa, ?_⟩
  rw [htext]
  rfl

/-- A number that was read off a run of digits is a magnitude. -/
theorem isMagnitude_of_isDigits {digits : List Char} (hdigits : IsDigits Char.isDigit digits)
    (h : ofCharacters? digits = some n) : Expr.IsMagnitude n := by
  obtain ⟨source, hsource, rfl, -⟩ := ofCharacters?_of_isDigits hdigits
  exact isMagnitude_of_ofCharacters? hsource h

/-- The magnitude of an integer is one. -/
theorem isMagnitude_ofInt (k : Int) : Expr.IsMagnitude { ofInt k with negative := false } := by
  have hdigits := Text.isDigits_naturalText k.natAbs
  obtain ⟨-, -, -, hnumber⟩ := ofCharacters?_of_isDigits hdigits
  exact isMagnitude_of_isDigits hdigits hnumber

end Number

end Symbolic
