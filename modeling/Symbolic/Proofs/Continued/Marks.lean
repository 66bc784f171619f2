import Symbolic.Proofs.Continued.Names

/-!
# Operators, references and numerals of texts that go on

An operator is found as well when the text goes on, unless it may be the start of a longer one, and
then only signs are left of the text. With numerals there is a little more that can be left, and it
can be a fault: a precision mark or an exponent mark at the end of the text may be followed by the
digits that are missing there.

## Key results

- `Mark.signs`: what an operator that may be longer leaves
- `Unfinished`: where a text can end within a lexeme so that more of it mends the fault
- `Mark.read_followedBy`, `Reference.slot_followedBy`, `Reference.out_followedBy`,
  `Numeral.read_followedBy`: what is found in a text that goes on
- `Mark.fault_of_read`, `Numeral.fault_of_read`: faults of a text that goes on
-/

namespace Symbolic

open Literal (append_ne_cons)

/-! ## Operators -/

namespace Mark

variable {kind : TokenKind} {cs rest : List Char} {c : Cursor}

/-- The characters that stand behind another one in an operator. -/
def signs : List Char :=
  ['@', '/', '.', ':', '=', '!', '>', '?', '+', '-', '*', ';', '&', '|', '~', '<', '^']

/-- An operator goes on with signs only. -/
theorem mem_signs_of_mem_tail : ∀ kind ∈ kinds, ∀ c ∈ kind.spelling.toList.tail, c ∈ signs := by
  decide

/-- The characters that an operator or a bracket can start with. Each is one by itself. -/
def starts : List Char :=
  signs ++ ['(', ')', '[', ']', '{', '}', ',', '\'']

/-- An operator starts with a character that an operator can start with. -/
theorem take_one_mem_starts : ∀ kind ∈ kinds,
    kind.spelling.toList.take 1 ∈ starts.map fun c => [c] := by
  decide

/-- Each such character is an operator alone. -/
theorem exists_single_of_mem_starts : ∀ c ∈ starts, ∃ kind ∈ kinds,
    kind.spelling.toList = [c] ∧ losesPoint kind = false := by
  decide

/-- A text that starts with such a character starts with an operator. -/
theorem ascii?_ne_none {c : Char} (h : c ∈ starts) (rest : List Char) :
    ascii? (c :: rest) ≠ none := by
  intro hnone
  obtain ⟨kind, hmem, hspelling, hpoint⟩ := exists_single_of_mem_starts c h
  have hspelled := List.findSome?_eq_none_iff.mp hnone kind hmem
  simp [spelled?, hspelling, hpoint, Text.strip?] at hspelled

/-- A text is read as an operator or a bracket if it starts like one. -/
theorem exists_read_of_mem_starts {char : Char} (h : char ∈ starts) (offset : Nat) :
    ∃ found, read ⟨offset, char :: rest⟩ = .ok found := by
  obtain ⟨found, hfound⟩ := Option.ne_none_iff_exists'.mp (ascii?_ne_none h rest)
  exact ⟨_, by rw [read, hfound]⟩

/-- An operator that a text is not the start of is spelled there or not, however the text goes
    on. -/
theorem spelled?_append (h : ¬cs <+: kind.spelling.toList) (more : List Char) :
    spelled? kind (cs ++ more) = (spelled? kind cs).map (· ++ more) := by
  unfold spelled?
  cases hstrip : Text.strip? kind.spelling.toList cs with
  | some rest =>
    have hcs := Text.strip?_eq_some_iff.mp hstrip
    have hne : rest ≠ [] := by
      rintro rfl
      exact h ⟨[], by rw [hcs, List.append_nil, List.append_nil]⟩
    rw [Text.strip?_eq_some_iff.mpr (show cs ++ more = _ ++ (rest ++ more) by
      rw [hcs, List.append_assoc])]
    simp only [Option.filter_some, List.head?_append_of_ne_nil _ hne]
    split <;> rfl
  | none =>
    cases hmore : Text.strip? kind.spelling.toList (cs ++ more) with
    | none => rfl
    | some rest =>
      -- the spelling would be that of a text that goes beyond the end
      rcases List.append_eq_append_iff.mp (Text.strip?_eq_some_iff.mp hmore) with
        ⟨after, hafter, -⟩ | ⟨after, hafter, -⟩
      · exact absurd ⟨after, hafter.symm⟩ h
      · cases hstrip.symm.trans (Text.strip?_eq_some_iff.mpr hafter)

/-- The same operator is found if the same spellings are. -/
theorem ascii?_append_of_spelled {more : List Char} (h : ∀ kind ∈ kinds,
      spelled? kind (cs ++ more) = (spelled? kind cs).map (· ++ more)) :
    ascii? (cs ++ more) = (ascii? cs).map fun found => (found.1, found.2 ++ more) := by
  unfold ascii?
  generalize kinds = all at h
  induction all with
  | nil => rfl
  | cons kind all ih =>
    rw [List.findSome?_cons, List.findSome?_cons, h kind List.mem_cons_self]
    cases spelled? kind cs with
    | none => exact ih fun kind hmem => h kind (List.mem_cons_of_mem _ hmem)
    | some rest => rfl

/-- The operator at the start of a text is the same when the text goes on, unless the text is the
    start of one. -/
theorem ascii?_append (h : ∀ kind ∈ kinds, ¬cs <+: kind.spelling.toList) (more : List Char) :
    ascii? (cs ++ more) = (ascii? cs).map fun found => (found.1, found.2 ++ more) :=
  ascii?_append_of_spelled fun kind hmem => spelled?_append (h kind hmem) more

/-- A text that starts with no operator starts with none when it goes on. -/
theorem ascii?_append_eq_none (hne : cs ≠ []) (h : ascii? cs = none) (more : List Char) :
    ascii? (cs ++ more) = none := by
  rw [ascii?_append, h]
  · rfl
  · intro kind hmem hprefix
    obtain ⟨first, rest, rfl⟩ := List.exists_cons_of_ne_nil hne
    obtain ⟨after, hafter⟩ := hprefix
    have hstart := take_one_mem_starts kind hmem
    rw [← hafter] at hstart
    obtain ⟨_, hmem', heq⟩ := List.mem_map.mp hstart
    obtain rfl := (List.cons.inj heq).1
    exact ascii?_ne_none hmem' rest h

/-- Where an operator may be longer than what there is of the text, only signs are left. -/
theorem mem_signs_of_ascii? (h : ascii? cs = some (kind, rest))
    (hlonger : ∃ kind ∈ kinds, cs <+: kind.spelling.toList) : ∀ c ∈ rest, c ∈ signs := by
  obtain ⟨kind', hmem, after, hafter⟩ := hlonger
  obtain ⟨-, hspelled⟩ := Scan.mem_kinds_of_ascii? h
  have hcs : cs = kind.spelling.toList ++ rest :=
    Text.strip?_eq_some_iff.mp (Option.filter_eq_some_iff.mp hspelled).1
  intro c hc
  obtain ⟨first, more, hspelling⟩ := List.exists_cons_of_ne_nil (spelling_ne_nil kind)
  refine mem_signs_of_mem_tail kind' hmem c ?_
  rw [← hafter, hcs, hspelling]
  exact List.mem_append_left _ (List.mem_append_right _ hc)

/-- An operator is read as well when the text goes on, unless only signs are left behind it. -/
theorem read_followedBy {found : Lexeme} (hne : c.rest ≠ []) (h : read c = .ok found) :
    (∀ x ∈ found.next.rest, x ∈ signs) ∨
      ∀ more, read (c.followedBy more) = .ok (found.followedBy more) := by
  unfold read at h
  split at h
  · -- an operator in ASCII may be the start of a longer one
    rename_i kind rest hascii
    cases h
    refine Classical.or_iff_not_imp_left.mpr fun hsigns more => ?_
    have hshorter : ∀ kind ∈ kinds, ¬c.rest <+: kind.spelling.toList := fun kind hmem hprefix =>
      hsigns (mem_signs_of_ascii? hascii ⟨kind, hmem, hprefix⟩)
    rw [read, Cursor.followedBy, ascii?_append hshorter, hascii]
    rfl
  · rename_i hascii
    split at h
    · -- any other is a single character
      rename_i kind hoperator
      cases h
      refine .inr fun more => ?_
      obtain ⟨offset, cs⟩ := c
      obtain ⟨first, rest, rfl⟩ := List.exists_cons_of_ne_nil hne
      have hoperator' : Character.operator? first = some kind := hoperator
      rw [read, Cursor.followedBy, ascii?_append_eq_none hne hascii]
      simp [hoperator', Lexeme.verbatim, Lexeme.followedBy, Cursor.after, Cursor.followedBy]
    · cases h

/-- What starts with no operator starts with none when the text goes on. -/
theorem fault_of_read {e : ScanError} (hne : c.rest ≠ []) (h : read c = .error e)
    (more : List Char) : ∃ e', read (c.followedBy more) = .error e' := by
  unfold read at h
  split at h
  · cases h
  · rename_i hascii
    split at h
    · cases h
    · rename_i hoperator
      obtain ⟨offset, cs⟩ := c
      obtain ⟨first, rest, rfl⟩ := List.exists_cons_of_ne_nil hne
      -- neither spelling has the character as its start
      have hoperator' : Character.operator? first = none := hoperator
      rw [read, Cursor.followedBy, ascii?_append_eq_none hne hascii]
      simp [hoperator']

end Mark

/-! ## References -/

namespace Reference

variable {c : Cursor} {rest : List Char}

/-- A run of characters is taken as before, unless the text ends right behind it. -/
theorem verbatim_runs (kind : TokenKind) (c : Cursor) (before : List Char) {belongs : Char → Bool}
    (h : rest.dropWhile belongs ≠ []) (more : List Char) :
    Lexeme.verbatim kind (c.followedBy more) (before ++ (rest ++ more).takeWhile belongs)
        ((rest ++ more).dropWhile belongs) =
      (Lexeme.verbatim kind c (before ++ rest.takeWhile belongs)
        (rest.dropWhile belongs)).followedBy more := by
  obtain ⟨htake, hdrop⟩ := Literal.runs_append h more
  rw [htake, hdrop]
  rfl

/-- A slot takes the characters that go on with it. -/
theorem slot_of_not_sequence (h : ∀ after, rest ≠ '#' :: after) (offset : Nat) :
    slot ⟨offset, '#' :: rest⟩ =
      .verbatim .slot ⟨offset, '#' :: rest⟩ ('#' :: rest.takeWhile (slotCharacter rest))
        (rest.dropWhile (slotCharacter rest)) := by
  unfold slot
  split
  · exact absurd ‹_› (h _)
  · rfl

/-- A slot is read as well when the text goes on, unless it takes all of it. -/
theorem slot_followedBy (hc : c.rest = '#' :: rest) : (slot c).next.rest = [] ∨
    ∀ more, slot (c.followedBy more) = (slot c).followedBy more := by
  obtain ⟨offset, cs⟩ := c
  obtain rfl : cs = '#' :: rest := hc
  by_cases hrest : rest = []
  · exact .inl (by rw [hrest]; rfl)
  refine Classical.or_iff_not_imp_left.mpr fun hnext more => ?_
  by_cases hsequence : ∃ after, rest = '#' :: after
  · obtain ⟨after, rfl⟩ := hsequence
    -- two signs and the digits behind them
    exact verbatim_runs .slotSequence ⟨offset, '#' :: '#' :: after⟩ ['#', '#'] hnext more
  · rw [not_exists] at hsequence
    -- one sign, with digits or a name behind it
    have hcharacter : slotCharacter (rest ++ more) = slotCharacter rest := by
      rw [slotCharacter, List.head?_append_of_ne_nil _ hrest, slotCharacter]
    rw [slot_of_not_sequence hsequence] at hnext ⊢
    have hslot := slot_of_not_sequence (append_ne_cons hrest hsequence more) offset
    rw [hcharacter] at hslot
    exact hslot.trans (verbatim_runs .slot ⟨offset, '#' :: rest⟩ ['#'] hnext more)

/-- So is a reference to an output. -/
theorem out_followedBy (hc : c.rest = '%' :: rest) : (out c).next.rest = [] ∨
    ∀ more, out (c.followedBy more) = (out c).followedBy more := by
  obtain ⟨offset, cs⟩ := c
  obtain rfl : cs = '%' :: rest := hc
  by_cases hrest : rest = []
  · exact .inl (by rw [hrest]; rfl)
  refine Classical.or_iff_not_imp_left.mpr fun hnext more => ?_
  -- the first character behind the sign tells which characters are taken
  have hcharacter : outCharacter (rest ++ more) = outCharacter rest := by
    rw [outCharacter, List.head?_append_of_ne_nil _ hrest, outCharacter]
  have hout : ∀ rest, out ⟨offset, '%' :: rest⟩ = .verbatim .out ⟨offset, '%' :: rest⟩
      (['%'] ++ rest.takeWhile (outCharacter rest)) (rest.dropWhile (outCharacter rest)) :=
    fun _ => rfl
  rw [hout] at hnext ⊢
  have hmore := hout (rest ++ more)
  rw [hcharacter] at hmore
  exact hmore.trans (verbatim_runs .out ⟨offset, '%' :: rest⟩ ['%'] hnext more)

end Reference

/-! ## Faults that more text mends -/

/-- The text ends within the lexeme at `c`, and where it is at fault for that: at a context mark,
    within an escape for a character that something starts with, within an escape in a string that
    was opened and not closed, or within a number. -/
inductive Unfinished (c : Cursor) : ScanFault → Cursor → Prop where
  | mark (rest : c.rest = ['\u0060']) : Unfinished c .unrecognizedToken c
  | escape (isOpen : Escape.Open (fun char => Character.startsName char = true ∨
      (Character.operator? char).isSome = true) c.rest) : Unfinished c .invalidEscape c
  | quoted {rest : List Char} {d : Cursor} (quote : c.rest = '"' :: rest)
      (within : Quoted.Within c.offset (c.after ['"'] rest) d)
      (isOpen : Escape.Open (fun _ => True) d.rest) : Unfinished c .invalidEscape d
  | precision {literal rest : List Char}
      (split : Literal.split? c.rest = some (literal ++ ['\u0060'], '\u0060' :: rest))
      (mem : rest ∈ Literal.openSigned) : Unfinished c .incompleteNumber c
  | exponent {literal : List Char} (split : Literal.split? c.rest = some (literal, ['*', '^'])) :
      Unfinished c .incompleteNumber c

/-- The fault of the lexeme at `c` is one of those that more text mends. -/
def Mends (c : Cursor) (e : ScanError) : Prop :=
  ∃ d, e.loc.start = Location.clamp d.offset ∧ Unfinished c e.fault d

namespace Numeral

variable {c : Cursor}

/-- What a literal may go on with is made of signs. -/
theorem mem_signs_of_openParts : ∀ rest ∈ Literal.openParts, ∀ c ∈ rest, c ∈ Mark.signs := by
  decide

/-- So are two points. -/
theorem mem_signs_of_points : ∀ c ∈ ['.', '.'], c ∈ Mark.signs := by
  decide

/-- Behind the mark of an exponent a literal goes on with a sign. -/
theorem continuesExponent_of_openParts : ∀ rest ∈ Literal.openParts,
    rest.take 2 = ['*', '^'] → rest.drop 2 ≠ [] → continuesExponent (rest.drop 2) = true := by
  decide

section Endings

variable {literal rest : List Char}

/-- A second precision mark makes a number incomplete. -/
theorem read_of_mark (h : Literal.split? c.rest = some (literal, '\u0060' :: rest)) :
    read c = .error (.between c.offset (c.offset + Text.byteLength literal + 1)
      .incompleteNumber) := by
  simp only [read, h]
  rfl

/-- The mark of an exponent makes a number incomplete unless a sign or a digit follows. -/
theorem read_of_exponent (h : Literal.split? c.rest = some (literal, '*' :: '^' :: rest)) :
    read c =
      if continuesExponent rest then .ok (.verbatim .number c literal ('*' :: '^' :: rest))
      else .error (.between c.offset (c.offset + Text.byteLength literal + 2)
        .incompleteNumber) := by
  simp only [read, h]
  rfl

/-- Any other literal is a number. -/
theorem read_of_end (h : Literal.split? c.rest = some (literal, rest))
    (hmark : ∀ after, rest ≠ '\u0060' :: after) (hexponent : ∀ after, rest ≠ '*' :: '^' :: after) :
    read c = .ok (.verbatim .number c literal rest) := by
  simp only [read, h]

end Endings

/-- Whether an exponent goes on is seen from the next character. -/
theorem continuesExponent_append {cs : List Char} (h : cs ≠ []) (more : List Char) :
    continuesExponent (cs ++ more) = continuesExponent cs := by
  rw [continuesExponent, List.head?_append_of_ne_nil _ h, continuesExponent]

/-- The literal that a numeral starts with is firm, or ends where it may go on. -/
theorem firm_of_startsNumeral {cs : List Char} (h : Scan.startsNumeral cs = true) :
    Literal.Firm Literal.split? cs ∨ ∃ literal rest, Literal.split? cs = some (literal, rest) ∧
      (Literal.Open literal rest ∨ rest = ['.', '.']) := by
  rcases Literal.firm_split? cs with hfirm | hopen | rfl | rfl
  · exact .inl hfirm
  · exact .inr hopen
  · cases h
  · cases h

/-- A number is read as well when the text goes on, unless only signs are left behind it. -/
theorem read_followedBy {found : Lexeme} (hstarts : Scan.startsNumeral c.rest = true)
    (h : read c = .ok found) : (∀ x ∈ found.next.rest, x ∈ Mark.signs) ∨
      ∀ more, read (c.followedBy more) = .ok (found.followedBy more) := by
  obtain ⟨literal, rest, hsplit, rfl⟩ := Scan.numeral_of_read h
  have hmark : ∀ after, rest ≠ '\u0060' :: after := by
    rintro after rfl
    cases h.symm.trans (read_of_mark hsplit)
  rcases firm_of_startsNumeral hstarts with hfirm | ⟨literal', rest', hsplit', hopen⟩
  · have hmore : ∀ more, Literal.split? (c.followedBy more).rest = some (literal, rest ++ more) :=
      fun more => (hfirm more).trans (by rw [hsplit]; rfl)
    by_cases hexponent : ∃ after, rest = '*' :: '^' :: after
    · -- an exponent is expected, but the sign may be an operator
      obtain ⟨after, rfl⟩ := hexponent
      have hcontinues : continuesExponent after = true := by
        by_contra hnot
        have herror := read_of_exponent hsplit
        rw [if_neg hnot] at herror
        cases h.symm.trans herror
      have hne : after ≠ [] := by
        rintro rfl
        cases hcontinues
      refine .inr fun more => ?_
      have hread := read_of_exponent
        (show Literal.split? _ = some (literal, '*' :: '^' :: (after ++ more)) from hmore more)
      rw [continuesExponent_append hne, if_pos hcontinues] at hread
      exact hread
    rw [not_exists] at hexponent
    -- the literal ends before a character that goes on with no part of it
    refine Classical.or_iff_not_imp_left.mpr fun hsigns more => ?_
    have hne : rest ≠ [] := by
      rintro rfl
      exact hsigns fun _ hx => nomatch hx
    refine read_of_end (hmore more) (append_ne_cons hne hmark more) fun after heq => ?_
    obtain ⟨first, rest, rfl⟩ := List.exists_cons_of_ne_nil hne
    obtain ⟨rfl, htail⟩ := List.cons.inj heq
    have hne' : rest ≠ [] := by
      rintro rfl
      exact hsigns (mem_signs_of_openParts ['*'] (by decide))
    exact append_ne_cons hne' (fun after heq' => hexponent after (by rw [heq'])) more after htail
  · obtain ⟨rfl, rfl⟩ := Prod.mk.inj (Option.some.inj (hsplit.symm.trans hsplit'))
    -- the literal ends with the text, or only signs are left
    rcases hopen with (hpart | _) | rfl
    · exact .inl (mem_signs_of_openParts _ hpart)
    · exact absurd rfl (hmark _)
    · exact .inl mem_signs_of_points

section Faults

variable {e : ScanError} {literal rest : List Char}

/-- An unfinished number is mended by more text. -/
theorem mends_of_unfinished (h : Unfinished c .incompleteNumber c) (stop : Nat) :
    Mends c (.between c.offset stop .incompleteNumber) :=
  ⟨c, rfl, h⟩

/-- A precision mark behind a literal is mended only by the digits of a precision. -/
theorem fault_of_mark (hstarts : Scan.startsNumeral c.rest = true)
    (hsplit : Literal.split? c.rest = some (literal, '\u0060' :: rest)) (h : read c = .error e) :
    Mends c e ∨ ∀ more, ∃ e', read (c.followedBy more) = .error e' := by
  rcases firm_of_startsNumeral hstarts with hfirm | ⟨literal', rest', hsplit', hopen⟩
  · refine .inr fun more => ?_
    have hmore : Literal.split? (c.followedBy more).rest =
        some (literal, '\u0060' :: (rest ++ more)) :=
      (hfirm more).trans (by rw [hsplit]; rfl)
    exact ⟨_, read_of_mark hmore⟩
  · obtain ⟨rfl, rfl⟩ := Prod.mk.inj (Option.some.inj (hsplit.symm.trans hsplit'))
    -- the second mark may become an accuracy, if only a sign stands behind it
    rcases hopen with (hpart | hopen) | hpoints
    · exact absurd (mem_signs_of_openParts _ hpart _ List.mem_cons_self) (by decide)
    · rw [Except.error.inj (h.symm.trans (read_of_mark hsplit))]
      exact .inl (mends_of_unfinished (.precision hsplit hopen) _)
    · cases hpoints

/-- An exponent mark behind a literal is mended only if the text ends right behind it. -/
theorem fault_of_exponent (hstarts : Scan.startsNumeral c.rest = true)
    (hsplit : Literal.split? c.rest = some (literal, '*' :: '^' :: rest))
    (h : read c = .error e) : Mends c e ∨ ∀ more, ∃ e', read (c.followedBy more) = .error e' := by
  have hread := read_of_exponent hsplit
  have hcontinues : continuesExponent rest = false := by
    by_contra hnot
    rw [if_pos (by simpa using hnot)] at hread
    cases h.symm.trans hread
  rw [hcontinues] at hread
  by_cases hrest : rest = []
  · subst hrest
    rw [Except.error.inj (h.symm.trans hread)]
    exact .inl (mends_of_unfinished (.exponent hsplit) _)
  -- something stands behind the mark that is neither a digit nor a sign
  rcases firm_of_startsNumeral hstarts with hfirm | ⟨literal', rest', hsplit', hopen⟩
  · refine .inr fun more => ?_
    have hmore : Literal.split? (c.followedBy more).rest =
        some (literal, '*' :: '^' :: (rest ++ more)) :=
      (hfirm more).trans (by rw [hsplit]; rfl)
    have hread' := read_of_exponent hmore
    rw [continuesExponent_append hrest, hcontinues] at hread'
    exact ⟨_, hread'⟩
  · obtain ⟨rfl, rfl⟩ := Prod.mk.inj (Option.some.inj (hsplit.symm.trans hsplit'))
    rcases hopen with hopen | hpoints
    · cases hopen with
      | part hpart =>
        cases hcontinues.symm.trans (continuesExponent_of_openParts _ hpart rfl hrest)
    · cases hpoints

/-- A number that is incomplete stays so when the text goes on, unless more text mends it. -/
theorem fault_of_read (hstarts : Scan.startsNumeral c.rest = true) (h : read c = .error e) :
    Mends c e ∨ ∀ more, ∃ e', read (c.followedBy more) = .error e' := by
  cases hsplit : Literal.split? c.rest with
  | none =>
    -- without a literal there is none when the text goes on
    rcases firm_of_startsNumeral hstarts with hfirm | ⟨literal, rest, hsplit', -⟩
    · refine .inr fun more => ?_
      have hmore : Literal.split? (c.followedBy more).rest = none :=
        (hfirm more).trans (by rw [hsplit]; rfl)
      simp only [read, hmore]
      exact ⟨_, rfl⟩
    · cases hsplit.symm.trans hsplit'
  | some split =>
    obtain ⟨literal, rest⟩ := split
    by_cases hmark : ∃ after, rest = '\u0060' :: after
    · obtain ⟨after, rfl⟩ := hmark
      exact fault_of_mark hstarts hsplit h
    by_cases hexponent : ∃ after, rest = '*' :: '^' :: after
    · obtain ⟨after, rfl⟩ := hexponent
      exact fault_of_exponent hstarts hsplit h
    · rw [not_exists] at hmark hexponent
      cases h.symm.trans (read_of_end hsplit hmark hexponent)

end Faults

end Numeral

end Symbolic
