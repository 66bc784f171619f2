import Symbolic.Proofs.Continued.Marks

/-!
# Lexemes of texts that go on

A lexeme is found as well when the text goes on, unless the text ends right behind it or soon after
it: what can be left is nothing but signs that may go on with an operator, or behind a name a
context mark or the start of an escape. A fault stays one too, unless the text ends within what is
at fault.

## Key results

- `Ends`: the text ends soon after a lexeme
- `lexeme_followedBy`: lexemes of a text that goes on
- `fault_of_lexeme`: faults of a text that goes on
-/

namespace Symbolic.Scan

variable {c : Cursor} {found : Lexeme} {e : ScanError} {rest : List Char}

/-- The text ends too early to tell what follows the lexeme that is read at `c`, or whether it is
    longer: nothing but signs are left, or it is open whether a name goes on. -/
def Ends (c : Cursor) (found : Lexeme) : Prop :=
  (∀ x ∈ found.next.rest, x ∈ Mark.signs) ∨
    (found.kind = .symbol ∨ found.kind = .blank) ∧ Name.OpenAt c found.next

/-- A lexeme that takes all of the text ends with it. -/
theorem Ends.of_nil (h : found.next.rest = []) : Ends c found := by
  refine .inl ?_
  rw [h]
  exact fun _ hx => nomatch hx

/-! ## Names and escapes -/

/-- A name before an underscore is part of a blank. -/
theorem symbol_of_underscore (h : (Name.read c).2.rest.head? = some '_') :
    symbol c = Placeholder.read (Name.read c).1 (Name.read c).2 :=
  if_pos h

/-- Any other name is a symbol. -/
theorem symbol_of_not_underscore (h : (Name.read c).2.rest.head? ≠ some '_') :
    symbol c = ⟨.symbol, (Name.read c).1, (Name.read c).2⟩ :=
  if_neg h

/-- What may go on with a name is no underscore. -/
theorem head?_ne_underscore_of_open {first : Bool} {cs : List Char} (h : Name.Open first cs) :
    cs.head? ≠ some '_' := by
  rcases h with rfl | rfl | hescape
  · simp
  · simp
  · obtain ⟨rest, rfl⟩ := hescape.exists_cons
    simp

/-- Nor is what stands behind a name that may go on. -/
theorem head?_ne_underscore_of_openAt {d : Cursor} (h : Name.OpenAt c d) :
    d.rest.head? ≠ some '_' := by
  rcases h with hopen | ⟨-, hopen⟩
  · exact head?_ne_underscore_of_open hopen
  · exact head?_ne_underscore_of_open hopen

/-- A symbol or a blank is found as well when the text goes on, unless it ends with the text. -/
theorem symbol_followedBy (c : Cursor) : Ends c (symbol c) ∨
    ∀ more, symbol (c.followedBy more) = (symbol c).followedBy more := by
  rcases Name.read_followedBy c with hopen | hread
  · -- the name itself may go on
    rw [symbol_of_not_underscore (head?_ne_underscore_of_openAt hopen)]
    exact .inl (.inr ⟨.inl rfl, hopen⟩)
  by_cases hnil : (Name.read c).2.rest = []
  · -- an underscore may follow the name
    rw [symbol_of_not_underscore (by simp [hnil])]
    exact .inl (.of_nil hnil)
  -- something follows the name, which decides whether it is part of a blank
  have hhead : ∀ more, (Name.read (c.followedBy more)).2.rest.head? =
      (Name.read c).2.rest.head? := by
    intro more
    rw [hread]
    exact List.head?_append_of_ne_nil _ hnil
  by_cases hunderscore : (Name.read c).2.rest.head? = some '_'
  · rw [symbol_of_underscore hunderscore]
    rcases Placeholder.read_followedBy (Name.read c).1 (Name.read c).2 with hopen | hblank
    · exact .inl (.inr ⟨.inr (kind_placeholder _ _), hopen.of_reaches (Name.reaches_read c)⟩)
    · refine .inr fun more => ?_
      rw [symbol_of_underscore ((hhead more).trans hunderscore), hread, hblank]
  · refine .inr fun more => ?_
    rw [symbol_of_not_underscore (by rwa [hhead]), hread, symbol_of_not_underscore hunderscore]
    rfl

/-- So is what an escape starts. -/
theorem escaped_followedBy (h : escaped c = .ok found) : Ends c found ∨
    ∀ more, escaped (c.followedBy more) = .ok (found.followedBy more) := by
  unfold escaped at h
  split at h
  · cases h
  · rename_i escape hread
    -- the escape is complete, so it stands for the same character
    have hstarts : ∀ more, Name.startsAt (c.followedBy more) = Name.startsAt c := fun more => by
      rw [Name.startsAt_of_escape hread,
        Name.startsAt_of_escape (Escape.read_followedBy hread more)]
    split at h
    · rename_i hname
      cases h
      refine (symbol_followedBy c).imp_right fun h more => ?_
      simp only [escaped, Escape.read_followedBy hread, hstarts, hname, if_true, h]
    · rename_i hname
      split at h
      · rename_i kind hoperator
        cases h
        refine .inr fun more => ?_
        simp only [escaped, Escape.read_followedBy hread, hstarts, hname, hoperator]
        rfl
      · cases h

/-- An escape at fault is mended by more text, or at fault however the text goes on. -/
theorem fault_of_escaped (hne : c.rest ≠ []) (h : escaped c = .error e) :
    Mends c e ∨ ∀ more, ∃ e', escaped (c.followedBy more) = .error e' := by
  -- an escape that is complete and starts nothing stays at fault
  have hfinal : ∀ {d : Cursor} {escape : Escape}, Escape.read d = .ok escape →
      Character.startsName escape.char = false → Character.operator? escape.char = none →
      ∃ e', escaped d = .error e' := by
    intro d escape hread hname hoperator
    rw [← Name.startsAt_of_escape hread] at hname
    exact ⟨_, by simp only [escaped, hread, hname, hoperator]; rfl⟩
  unfold escaped at h
  split at h
  · rename_i hread
    cases h
    refine (Escape.breaks_of_read (fun char => Character.startsName char = true ∨
      (Character.operator? char).isSome = true) hread hne).imp (fun hbreaks => ?_) ?_
    · exact ⟨c, hbreaks.start, hbreaks.fault ▸ .escape hbreaks.isOpen⟩
    · -- what the text goes on with is no escape, or one for a character that starts nothing
      intro hnone more
      cases hmore : Escape.read (c.followedBy more) with
      | error e' => exact ⟨e', by rw [escaped, hmore]⟩
      | ok escape =>
        obtain ⟨hstarts, hoperator⟩ := not_or.mp (hnone more escape hmore)
        exact hfinal hmore (Bool.eq_false_iff.mpr hstarts) (by simpa using hoperator)
  · rename_i escape hread
    split at h
    · cases h
    · rename_i hname
      split at h
      · cases h
      · rename_i hoperator
        rw [Name.startsAt_of_escape hread] at hname
        exact .inr fun more => hfinal (Escape.read_followedBy hread more)
          (by simpa using hname) hoperator

/-! ## Lexemes -/

/-- A string that is closed is found as well when the text goes on. -/
theorem quoted_followedBy {kind : TokenKind} (hne : c.rest ≠ []) (h : quoted kind c = .ok found)
    (more : List Char) : quoted kind (c.followedBy more) = .ok (found.followedBy more) := by
  unfold quoted at h
  cases hread : Quoted.read c with
  | error e' => simp [hread, Except.map] at h
  | ok read =>
    obtain ⟨text, next⟩ := read
    rw [hread] at h
    cases h
    rw [quoted, Quoted.read_followedBy hne hread]
    rfl

/-- A string at fault is incomplete, is mended by more text, or is at fault however the text goes
    on. -/
theorem fault_of_quoted {kind : TokenKind} (hc : c.rest = '"' :: rest)
    (h : quoted kind c = .error e) : e.isIncomplete = true ∨ Mends c e ∨
      ∀ more, ∃ e', quoted kind (c.followedBy more) = .error e' := by
  unfold quoted at h
  cases hread : Quoted.read c with
  | ok read => simp [hread, Except.map] at h
  | error e' =>
    rw [hread] at h
    cases h
    refine (Quoted.fault_of_read hc hread).imp_right (Or.imp ?_ ?_)
    · -- an escape within the string that is not complete
      rintro ⟨d, hwithin, hbreaks⟩
      exact ⟨d, hbreaks.start, hbreaks.fault ▸ .quoted hc hwithin hbreaks.isOpen⟩
    · intro hfinal more
      obtain ⟨e'', hread'⟩ := hfinal more
      exact ⟨e'', by rw [quoted, hread']; rfl⟩

/-- Whether a number starts is seen from two characters. -/
theorem startsNumeral_append {cs : List Char} (hne : cs ≠ []) (hpoint : cs ≠ ['.'])
    (more : List Char) : startsNumeral (cs ++ more) = startsNumeral cs := by
  obtain ⟨first, rest, rfl⟩ := List.exists_cons_of_ne_nil hne
  -- a point starts a number before a digit only
  by_cases hfirst : first = '.'
  · subst hfirst
    have hrest : rest ≠ [] := by
      rintro rfl
      exact hpoint rfl
    simp only [List.cons_append, startsNumeral, List.head?_append_of_ne_nil _ hrest]
  · have hdigit : ∀ rest, startsNumeral (first :: rest) = first.isDigit := by
      intro rest
      unfold startsNumeral
      split
      · exact absurd (List.cons.inj ‹_›).1 hfirst
      · rfl
    rw [List.cons_append, hdigit, hdigit]

/-- A lexeme at the last character of a text. -/
theorem Ends.of_last {offset : Nat} {char : Char} (h : plain ⟨offset, [char]⟩ = .ok found) :
    Ends ⟨offset, [char]⟩ found := by
  have hlt := (precedes_of_plain (List.cons_ne_nil char []) h).length_lt
  exact .of_nil (List.length_eq_zero_iff.mp (Nat.lt_one_iff.mp hlt))

/-- Whether a name starts at a place that is not that of an escape. -/
theorem startsAt_followedBy_of_ne {offset : Nat} {first : Char} (hescape : first ≠ '\\')
    (hmark : first :: rest ≠ ['\u0060']) (more : List Char) :
    Name.startsAt ⟨offset, first :: (rest ++ more)⟩ = Name.startsAt ⟨offset, first :: rest⟩ := by
  rcases Name.startsAt_followedBy ⟨offset, first :: rest⟩ with hopen | hsame
  · rcases hopen with hnil | hopen | hopen
    · cases hnil
    · exact absurd hopen hmark
    · obtain ⟨rest', hrest⟩ := hopen.exists_cons
      exact absurd (List.cons.inj hrest).1 hescape
  · exact hsame more

/-- Away from the characters that decide alone what a lexeme is, it is decided in the same way when
    the text goes on, unless the text ends right behind a point or a context mark. -/
theorem plain_cons_append {offset : Nat} {first : Char} (hfirst : ∀ d ∈ decisiveStarts, first ≠ d)
    (hmark : first :: rest ≠ ['\u0060']) (hpoint : first :: rest ≠ ['.']) (more : List Char) :
    plain ⟨offset, first :: (rest ++ more)⟩ =
      if startsNumeral (first :: rest) then Numeral.read ⟨offset, first :: (rest ++ more)⟩
      else if Name.startsAt ⟨offset, first :: rest⟩ then
        .ok (symbol ⟨offset, first :: (rest ++ more)⟩)
      else Mark.read ⟨offset, first :: (rest ++ more)⟩ := by
  have hnumeral : startsNumeral (first :: (rest ++ more)) = startsNumeral (first :: rest) :=
    startsNumeral_append (List.cons_ne_nil _ _) hpoint more
  rw [plain_cons hfirst, hnumeral,
    startsAt_followedBy_of_ne (hfirst '\\' (by decide)) hmark]

/-- Some characters decide alone how a lexeme is read. -/
theorem decisive_cases (char : Char) : (∀ d ∈ decisiveStarts, char ≠ d) ∨
    char = '"' ∨ char = '#' ∨ char = '%' ∨ char = '_' ∨ char = '\\' := by
  by_cases h : char ∈ decisiveStarts
  · exact .inr (by simpa [decisiveStarts] using h)
  · exact .inl fun d hd heq => h (heq ▸ hd)

/-- A lexeme is found as well when the text goes on, unless it ends with the text. -/
theorem plain_followedBy (hne : c.rest ≠ []) (h : plain c = .ok found) :
    Ends c found ∨ ∀ more, plain (c.followedBy more) = .ok (found.followedBy more) := by
  obtain ⟨offset, cs⟩ := c
  obtain ⟨first, rest, rfl⟩ := List.exists_cons_of_ne_nil hne
  rcases decisive_cases first with hfirst | rfl | rfl | rfl | rfl | rfl
  · -- a number, a name or an operator is told from the second character
    by_cases hlast : rest = []
    · subst hlast
      exact .inl (.of_last h)
    have hplain := @plain_cons_append rest offset first hfirst (by simp [hlast]) (by simp [hlast])
    rw [plain_cons hfirst] at h
    split at h
    · rename_i hnumeral
      simp only [if_pos hnumeral] at hplain
      refine (Numeral.read_followedBy hnumeral h).imp .inl fun hread more => ?_
      exact (hplain more).trans (hread more)
    · rename_i hnumeral
      simp only [if_neg hnumeral] at hplain
      split at h
      · rename_i hname
        simp only [if_pos hname] at hplain
        cases h
        refine (symbol_followedBy _).imp_right fun hsymbol more => ?_
        exact (hplain more).trans (congrArg Except.ok (hsymbol more))
      · rename_i hname
        simp only [if_neg hname] at hplain
        refine (Mark.read_followedBy hne h).imp .inl fun hread more => ?_
        exact (hplain more).trans (hread more)
  · -- the character alone decides from here on
    exact .inr (quoted_followedBy hne h)
  · cases h
    refine (Reference.slot_followedBy rfl).imp .of_nil fun hslot more => ?_
    exact congrArg Except.ok (hslot more)
  · cases h
    refine (Reference.out_followedBy rfl).imp .of_nil fun hout more => ?_
    exact congrArg Except.ok (hout more)
  · cases h
    refine (Placeholder.read_followedBy [] _).imp (fun hopen => .inr ⟨.inr ?_, hopen⟩) ?_
    · exact kind_placeholder _ _
    · exact fun hblank more => congrArg Except.ok (hblank more)
  · exact escaped_followedBy h

/-- No name starts with the backquote that a text ends in. -/
theorem startsAt_backquote (offset : Nat) : Name.startsAt ⟨offset, ['\u0060']⟩ = false := by
  have hstarts : Character.startsName '\u0060' = false := by
    decide +kernel
  rw [Name.startsAt, Glyph.at?_cons (by decide)]
  exact hstarts

/-- A backquote alone is no token. -/
theorem plain_backquote (offset : Nat) : ∃ stop,
    plain ⟨offset, ['\u0060']⟩ = .error (.between offset stop .unrecognizedToken) := by
  rw [plain_cons (by decide), if_neg (by decide), startsAt_backquote]
  exact ⟨_, rfl⟩

/-- A lexeme at fault is incomplete, is mended by more text, or is at fault however the text goes
    on. -/
theorem fault_of_plain (hne : c.rest ≠ []) (h : plain c = .error e) :
    e.isIncomplete = true ∨ Mends c e ∨ ∀ more, ∃ e', plain (c.followedBy more) = .error e' := by
  obtain ⟨offset, cs⟩ := c
  obtain ⟨first, rest, rfl⟩ := List.exists_cons_of_ne_nil hne
  rcases decisive_cases first with hfirst | rfl | rfl | rfl | rfl | rfl
  · refine .inr ?_
    -- a backquote at the end may become the context of a name
    by_cases hmark : first :: rest = ['\u0060']
    · rw [hmark] at h ⊢
      obtain ⟨stop, herror⟩ := plain_backquote offset
      rw [Except.error.inj (h.symm.trans herror)]
      exact .inl ⟨⟨offset, ['\u0060']⟩, rfl, .mark rfl⟩
    rw [plain_cons hfirst] at h
    -- a point at the end is an operator already
    by_cases hpoint : first :: rest = ['.']
    · obtain ⟨rfl, rfl⟩ := List.cons.inj hpoint
      obtain ⟨found, hread⟩ :=
        Mark.exists_read_of_mem_starts (show '.' ∈ Mark.starts by decide) offset
      rw [if_neg (by decide)] at h
      split at h
      · cases h
      · cases h.symm.trans hread
    have hplain := @plain_cons_append rest offset first hfirst hmark hpoint
    split at h
    · rename_i hnumeral
      simp only [if_pos hnumeral] at hplain
      refine (Numeral.fault_of_read hnumeral h).imp_right fun hfinal more => ?_
      exact (hfinal more).imp fun _ => (hplain more).trans
    · rename_i hnumeral
      simp only [if_neg hnumeral] at hplain
      split at h
      · cases h
      · rename_i hname
        simp only [if_neg hname] at hplain
        exact .inr fun more => (Mark.fault_of_read hne h more).imp fun _ => (hplain more).trans
  · exact fault_of_quoted rfl h
  · cases h
  · cases h
  · cases h
  · exact .inr (fault_of_escaped hne h)

/-! ## File names -/

/-- Where a file name is expected, there is a quoted one, one without quotes, or none. -/
theorem filename_cases (c : Cursor) :
    (c.rest.head? = some '"' ∧ filename c = quoted .filename c) ∨
      (c.rest.head? ≠ some '"' ∧ c.rest.head?.any isFilenameCharacter = true ∧
        filename c = .ok (.verbatim .filename c (c.rest.takeWhile isFilenameCharacter)
          (c.rest.dropWhile isFilenameCharacter))) ∨
      (c.rest.head? ≠ some '"' ∧ c.rest.head?.any isFilenameCharacter = false ∧
        filename c = plain c) := by
  unfold filename
  by_cases hquote : c.rest.head? = some '"'
  · exact .inl ⟨hquote, if_pos hquote⟩
  rw [if_neg hquote]
  cases hname : c.rest.head?.any isFilenameCharacter with
  | true => exact .inr (.inl ⟨hquote, rfl, rfl⟩)
  | false => exact .inr (.inr ⟨hquote, rfl, rfl⟩)

/-- A file name is found as well when the text goes on, unless it ends with the text. -/
theorem filename_followedBy (hne : c.rest ≠ []) (h : filename c = .ok found) :
    Ends c found ∨ ∀ more, filename (c.followedBy more) = .ok (found.followedBy more) := by
  have hhead : ∀ more, (c.followedBy more).rest.head? = c.rest.head? :=
    fun more => List.head?_append_of_ne_nil _ hne
  rcases filename_cases c with ⟨hquote, hcase⟩ | ⟨hquote, hname, hcase⟩ | ⟨hquote, hname, hcase⟩
  · refine .inr fun more => ?_
    rw [filename, hhead, if_pos hquote]
    exact quoted_followedBy hne (hcase.symm.trans h) more
  · -- a name without quotes, which ends with the text or before another character
    cases hcase.symm.trans h
    refine Classical.or_iff_not_imp_left.mpr fun hends more => ?_
    rw [filename, hhead, if_neg hquote, if_pos hname]
    exact congrArg Except.ok
      (Reference.verbatim_runs .filename c [] (fun hnil => hends (.of_nil hnil)) more)
  · refine (plain_followedBy hne (hcase.symm.trans h)).imp_right fun hplain more => ?_
    rw [filename, hhead, if_neg hquote, hname]
    exact hplain more

/-- A file name at fault is incomplete, is mended by more text, or is at fault however the text goes
    on. -/
theorem fault_of_filename (hne : c.rest ≠ []) (h : filename c = .error e) :
    e.isIncomplete = true ∨ Mends c e ∨ ∀ more, ∃ e', filename (c.followedBy more) = .error e' := by
  -- the first character decides how a file name is read, and more text leaves it as it is
  have hhead : ∀ more, (c.followedBy more).rest.head? = c.rest.head? :=
    fun more => List.head?_append_of_ne_nil _ hne
  rcases filename_cases c with ⟨hquote, hcase⟩ | ⟨hquote, hname, hcase⟩ | ⟨hquote, hname, hcase⟩
  · obtain ⟨rest, hrest⟩ := List.head?_eq_some_iff.mp hquote
    refine (fault_of_quoted hrest (hcase.symm.trans h)).imp_right (Or.imp_right ?_)
    intro hfinal more
    rw [filename, hhead, if_pos hquote]
    exact hfinal more
  · cases hcase.symm.trans h
  · refine (fault_of_plain hne (hcase.symm.trans h)).imp_right (Or.imp_right ?_)
    intro hfinal more
    rw [filename, hhead, if_neg hquote, hname]
    exact hfinal more

/-- A lexeme is found as well when the text goes on, unless the text ends soon after it. -/
theorem lexeme_followedBy {expectsFilename : Bool} (hne : c.rest ≠ [])
    (h : lexeme expectsFilename c = .ok found) : Ends c found ∨
      ∀ more, lexeme expectsFilename (c.followedBy more) = .ok (found.followedBy more) := by
  cases expectsFilename with
  | false => exact plain_followedBy hne h
  | true => exact filename_followedBy hne h

/-- What is no lexeme is none when the text goes on, unless the text ends within what is at
    fault. -/
theorem fault_of_lexeme {expectsFilename : Bool} (hne : c.rest ≠ [])
    (h : lexeme expectsFilename c = .error e) : e.isIncomplete = true ∨ Mends c e ∨
      ∀ more, ∃ e', lexeme expectsFilename (c.followedBy more) = .error e' := by
  cases expectsFilename with
  | false => exact fault_of_plain hne h
  | true => exact fault_of_filename hne h

end Symbolic.Scan
