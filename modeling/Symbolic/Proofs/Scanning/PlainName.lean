import Symbolic.Proofs.Scanning.Scans

/-!
# Names that are their own source

A name is plain if reading its characters gives the name again. Whatever a reader of names returns
is plain: escapes are resolved, and a context mark keeps the character after it. So is every name
of letters and digits. A plain name by itself is scanned as one symbol.

## Key results

- `isPlain_read`: what is read as a name is plain
- `isPlain_of_ascii`: a letter and more letters and digits are a plain name
- `exists_tokenize_of_isPlain`: a plain name is scanned as a symbol
-/

namespace Symbolic

/-! ## Characters of names -/

namespace Character

/-- What starts a name goes on with one. -/
theorem continuesName_of_startsName {c : Char} (h : startsName c = true) :
    continuesName c = true := by
  -- an underscore goes on with no name, but it starts none either
  have hunderscore : startsName '_' = false :=
    Scan.startsName_otherStarts '_' (by decide)
  have hne : c ≠ '_' := by
    rintro rfl
    rw [hunderscore] at h
    cases h
  simp only [startsName, continuesName, Bool.and_eq_true, Bool.or_eq_true] at h ⊢
  refine ⟨?_, h.2⟩
  rcases h.1 with (hstart | hdollar) | hletter
  · exact .inl (.inl ⟨Text.isIdentifierContinue_of_start hstart, by simpa using hne⟩)
  · exact .inl (.inr hdollar)
  · exact .inr hletter

/-- A backslash does not go on with a name. -/
theorem continuesName_backslash : continuesName '\\' = false := by
  decide +kernel

/-- Neither does an underscore. -/
theorem continuesName_underscore : continuesName '_' = false := by
  decide +kernel

/-- No operator is a character of ASCII. -/
theorem operator?_of_lt {c : Char} (h : c.toNat < 128) : operator? c = none := by
  have hall : ∀ entry ∈ operators, 128 ≤ entry.1.toNat := by
    decide
  rw [operator?, List.lookup_eq_none_iff]
  intro entry hentry
  have hle := hall entry hentry
  rw [bne_iff_ne]
  rintro rfl
  omega

end Character

namespace Name

open Character

/-- A name that is read as itself. -/
def IsPlain (cs : List Char) : Prop :=
  cs ≠ [] ∧ (read ⟨0, cs⟩).1 = cs

/-! ## What is read as a name -/

/-- A character goes on with a name if what it stands for does. -/
theorem readFrom_cons {first : Bool} {offset : Nat} {c : Char} {cs : List Char}
    (hescape : c ≠ '\\')
    (hbelongs : (Glyph.mk c false ⟨offset + c.utf8Size, cs⟩).belongs first = true)
    (hname : ∀ offset, (readFrom false ⟨offset, cs⟩).1 = cs) :
    (readFrom first ⟨offset, c :: cs⟩).1 = c :: cs := by
  rw [readFrom_of_belongs (Glyph.at?_cons hescape offset cs) hbelongs, hname]

/-- The character that a context mark stands before is that of the name, too. -/
theorem head?_readFrom_of_marksContext {g : Glyph} (h : g.marksContext = true) :
    (readFrom false g.next).1.head?.any startsName = true := by
  simp only [Glyph.marksContext, Bool.and_eq_true] at h
  obtain ⟨-, hnext⟩ := h
  revert hnext
  generalize g.next = place
  intro hnext
  obtain ⟨offset, rest⟩ := place
  cases rest with
  | nil => cases hnext
  | cons d rest =>
    -- the mark stands before a character that starts a name, which is kept with it
    have hstarts : startsName d = true := hnext
    have hcontinues := continuesName_of_startsName hstarts
    have hescape : d ≠ '\\' := by
      rintro rfl
      rw [continuesName_backslash] at hcontinues
      cases hcontinues
    have hbelongs : (Glyph.mk d false ⟨offset + d.utf8Size, rest⟩).belongs false = true := by
      simp [Glyph.belongs, hcontinues]
    rw [readFrom_of_belongs (Glyph.at?_cons hescape offset rest) hbelongs]
    exact hstarts

/-- A character of a name that marks no context can stand inside of one. -/
theorem marksContext_or_continuesName {g : Glyph} {first : Bool} (h : g.belongs first = true) :
    g.marksContext = true ∨ continuesName g.char = true := by
  unfold Glyph.belongs at h
  rw [Bool.or_eq_true] at h
  refine h.imp_right fun hclass => ?_
  cases first with
  | false => exact hclass
  | true => exact continuesName_of_startsName hclass

/-- Reading what was read as a name gives it again. -/
theorem readFrom_readFrom (first : Bool) (c : Cursor) (offset : Nat) :
    (readFrom first ⟨offset, (readFrom first c).1⟩).1 = (readFrom first c).1 := by
  fun_induction readFrom first c generalizing offset with
  | case1 => rw [readFrom_of_not_any rfl]
  | case2 first c g hat hbelongs name next hread ih =>
    rw [hread] at ih
    -- a backslash belongs to no name, so the character is read plainly
    have hescape : g.char ≠ '\\' := by
      intro heq
      rcases marksContext_or_continuesName hbelongs with hmark | hcontinues
      · simp [Glyph.marksContext, heq] at hmark
      · rw [heq, continuesName_backslash] at hcontinues
        cases hcontinues
    refine readFrom_cons hescape ?_ ih
    unfold Glyph.belongs at hbelongs ⊢
    rw [Bool.or_eq_true] at hbelongs ⊢
    rcases hbelongs with hmark | hclass
    · have hhead := head?_readFrom_of_marksContext hmark
      rw [hread] at hhead
      simp only [Glyph.marksContext, Bool.and_eq_true] at hmark
      exact .inl (by simp [Glyph.marksContext, hmark.1.2, hhead])
    · exact .inr hclass
  | case3 => rw [readFrom_of_not_any rfl]

/-- What is read as a name is plain. -/
theorem isPlain_read {c : Cursor} (h : startsAt c = true) : IsPlain (read c).1 := by
  refine ⟨?_, readFrom_readFrom true c 0⟩
  unfold startsAt at h
  cases hat : Glyph.at? c with
  | none => simp [hat] at h
  | some g =>
    rw [hat, Option.any_some] at h
    rw [read, readFrom_of_belongs hat h]
    simp

/-- A name with nothing in it, or a plain one. -/
theorem read_eq_nil_or_isPlain (c : Cursor) : (read c).1 = [] ∨ IsPlain (read c).1 := by
  by_cases hnil : (read c).1 = []
  · exact .inl hnil
  · exact .inr ⟨hnil, readFrom_readFrom true c 0⟩

/-- A name holds nothing but context marks and characters that names go on with. -/
theorem notMem_readFrom {d : Char} (hmark : d ≠ '\u0060') (hclass : continuesName d = false)
    (first : Bool) (c : Cursor) : d ∉ (readFrom first c).1 := by
  fun_induction readFrom first c with
  | case1 => simp
  | case2 first c g hat hbelongs name next hread ih =>
    rw [hread] at ih
    -- each character of a name continues one or marks a context
    have hne : d ≠ g.char := by
      rintro rfl
      rcases marksContext_or_continuesName hbelongs with hcontext | hcontinues
      · simp only [Glyph.marksContext, Bool.and_eq_true, beq_iff_eq] at hcontext
        exact hmark hcontext.1.2
      · rw [hclass] at hcontinues
        cases hcontinues
    simp [hne, ih]
  | case3 => simp

/-- A name holds no underscore. -/
theorem underscore_notMem_read (c : Cursor) : '_' ∉ (read c).1 :=
  notMem_readFrom (by decide) continuesName_underscore true c

/-! ## Letters and digits -/

/-- Where the letters and digits of ASCII are. -/
theorem toNat_of_isAlphanum {c : Char} (h : c.isAlphanum = true) :
    c.toNat < 128 ∧ (c.isAlpha = true ∨ 48 ≤ c.toNat ∧ c.toNat ≤ 57) := by
  have hcases : ((c.isUpper || c.isLower) || c.isDigit) = true := h
  rw [Bool.or_eq_true, Bool.or_eq_true, or_assoc] at hcases
  -- upper case, lower case and digits are ranges of ASCII
  rcases hcases with hupper | hlower | hdigit
  · have hrange : 'A'.val ≤ c.val ∧ c.val ≤ 'Z'.val := of_decide_eq_true hupper
    have hle : c.toNat ≤ 90 := UInt32.le_iff_toNat_le.mp hrange.2
    exact ⟨by omega, .inl ((Bool.or_eq_true _ _).mpr (.inl hupper))⟩
  · have hrange : (decide ('a'.val ≤ c.val) && decide (c.val ≤ 'z'.val)) = true := hlower
    rw [Bool.and_eq_true, decide_eq_true_iff, decide_eq_true_iff] at hrange
    have hle : c.toNat ≤ 122 := UInt32.le_iff_toNat_le.mp hrange.2
    exact ⟨by omega, .inl ((Bool.or_eq_true _ _).mpr (.inr hlower))⟩
  · have hrange := hdigit
    simp only [Char.isDigit, Bool.and_eq_true, decide_eq_true_eq, ge_iff_le,
      UInt32.le_iff_toNat_le] at hrange
    have hge : 48 ≤ c.toNat := hrange.1
    have hle : c.toNat ≤ 57 := hrange.2
    exact ⟨by omega, .inr ⟨hge, hle⟩⟩

/-- A letter of ASCII starts a name. -/
theorem startsName_of_isAlpha {c : Char} (h : c.isAlpha = true) : startsName c = true := by
  have halphanum : c.isAlphanum = true := by simp [Char.isAlphanum, h]
  have hlt := (toNat_of_isAlphanum halphanum).1
  simp [startsName, Text.isIdentifierStart_of_isAlpha h, operator?_of_lt hlt]

/-- A letter or a digit of ASCII goes on with one. -/
theorem continuesName_of_isAlphanum {c : Char} (h : c.isAlphanum = true) :
    continuesName c = true := by
  obtain ⟨hlt, halpha | hdigit⟩ := toNat_of_isAlphanum h
  · exact continuesName_of_startsName (startsName_of_isAlpha halpha)
  · have hmark : Text.isIdentifierContinue c = true := by
      rw [Text.isIdentifierContinue, Bool.or_eq_true,
        Text.inRanges_iff Text.sortedRanges_identifierMark]
      exact .inr ⟨(48, 57), by decide +kernel, hdigit⟩
    have hne : c ≠ '_' := by
      rintro rfl
      exact absurd hdigit (by decide)
    simp [continuesName, hmark, hne, operator?_of_lt hlt]

/-- A letter and more letters and digits, all of them ASCII, are a plain name. -/
theorem isPlain_of_ascii {c : Char} {cs : List Char} (hc : c.isAlpha = true)
    (hcs : cs.all Char.isAlphanum = true) : IsPlain (c :: cs) := by
  have hescape : ∀ d : Char, d.isAlphanum = true → d ≠ '\\' := by
    rintro d hd rfl
    exact absurd hd (by decide)
  -- letters and digits are taken one by one
  have hname : ∀ offset, (readFrom false ⟨offset, cs⟩).1 = cs := by
    clear hc
    induction cs with
    | nil =>
      intro offset
      rw [readFrom_of_not_any rfl]
    | cons d cs ih =>
      intro offset
      rw [List.all_cons, Bool.and_eq_true] at hcs
      refine readFrom_cons (hescape d hcs.1) ?_ (ih hcs.2)
      simp [Glyph.belongs, continuesName_of_isAlphanum hcs.1]
  refine ⟨by simp, readFrom_cons (hescape c (by simp [Char.isAlphanum, hc])) ?_ hname⟩
  simp [Glyph.belongs, startsName_of_isAlpha hc]

/-! ## Plain names as tokens -/

/-- A plain name alone is scanned as one symbol. -/
theorem exists_tokenize_of_isPlain {cs : List Char} (h : IsPlain cs) :
    ∃ loc stop, tokenize (.ofList cs) =
      .ok [⟨.symbol, .ofList cs, loc⟩, .endOfInput stop] := by
  obtain ⟨loc, hscans⟩ := Scan.scans_name Scan.atBoundary_nil h.1 h.2 0
  have htext : (String.ofList cs).toList = cs ++ [] := by simp
  rw [← htext] at hscans
  exact ⟨loc, _, Scan.tokenize_of_scans hscans⟩

end Name

end Symbolic
