import Symbolic.Expr.FullForm
import Symbolic.Proofs.Scanning.Name
import Symbolic.Proofs.Scanning.Numeral
import Symbolic.Token.Scan

/-!
# Scanning piece by piece

A stretch of text is scanned into tokens by itself if what follows it is scanned as it would be
alone. This is so for every atom of a full form that stands before a boundary, and for the
brackets and commas around it.

## Key results

- `Scans.trans`: stretches of text one after the other
- `scans_symbol`, `scans_numeral`, `scans_string`: atoms
-/

namespace Symbolic.Scan

/-! ## Kinds of lexemes -/

/-- The kinds of operators and brackets. -/
def markKinds : List TokenKind :=
  Mark.kinds ++ Character.operators.map Prod.snd

/-- No operator and no bracket is an atom. -/
theorem isAtom_of_mem_markKinds : ∀ kind ∈ markKinds, kind.isAtom = false := by
  decide

/-- Nor is one the end of the input. -/
theorem ne_endOfInput_of_mem_markKinds {kind : TokenKind} (h : kind ∈ markKinds) :
    kind ≠ .endOfInput := by
  rintro rfl
  exact absurd h (by decide)

/-- An operator that is found in ASCII is one of the known ones, and is spelled there. -/
theorem mem_kinds_of_ascii? {cs rest : List Char} {kind : TokenKind}
    (h : Mark.ascii? cs = some (kind, rest)) :
    kind ∈ Mark.kinds ∧ Mark.spelled? kind cs = some rest := by
  obtain ⟨kind', hmem, hkind⟩ := List.exists_of_findSome?_eq_some h
  simp only [Option.map_eq_some_iff, Prod.mk.injEq] at hkind
  obtain ⟨_, hspelled, rfl, rfl⟩ := hkind
  exact ⟨hmem, hspelled⟩

/-- A character that stands for an operator stands for a mark. -/
theorem mem_markKinds_of_operator? {c : Char} {kind : TokenKind}
    (h : Character.operator? c = some kind) : kind ∈ markKinds := by
  obtain ⟨before, after, hsplit, -⟩ := List.lookup_eq_some_iff.mp h
  refine List.mem_append_right _ (List.mem_map.mpr ⟨(c, kind), ?_, rfl⟩)
  rw [hsplit]
  simp

/-- What is read as a mark is one of the marks. -/
theorem mem_markKinds_of_read {c : Cursor} {found : Lexeme} (h : Mark.read c = .ok found) :
    found.kind ∈ markKinds := by
  unfold Mark.read at h
  split at h
  · rename_i hascii
    cases h
    -- an operator of ASCII, or else a single character that stands for one
    exact List.mem_append_left _ (mem_kinds_of_ascii? hascii).1
  · split at h
    · rename_i hoperator
      cases h
      obtain ⟨char, -, hchar⟩ := Option.bind_eq_some_iff.mp hoperator
      exact mem_markKinds_of_operator? hchar
    · cases h

/-- What is read as a number is the literal that the text is split at, as it stands there. -/
theorem numeral_of_read {c : Cursor} {found : Lexeme} (h : Numeral.read c = .ok found) :
    ∃ literal rest, Literal.split? c.rest = some (literal, rest) ∧
      found = .verbatim .number c literal rest := by
  unfold Numeral.read at h
  split at h
  · -- no literal stands there
    cases h
  · rename_i literal rest hsplit
    refine ⟨literal, rest, hsplit, ?_⟩
    simp only at h
    split at h
    · cases h
    · -- before an exponent mark the number is read only if that may be an operator
      split at h <;> cases h
      rfl
    · cases h
      rfl

/-- Quoted text is of the kind that it was read for. -/
theorem kind_of_quoted {kind : TokenKind} {c : Cursor} {found : Lexeme}
    (h : quoted kind c = .ok found) : found.kind = kind := by
  unfold quoted at h
  cases hread : Quoted.read c with
  | error => simp [hread, Except.map] at h
  | ok =>
    simp only [hread, Except.map, Except.ok.injEq] at h
    rw [← h]

/-- What is read at underscores is a blank. -/
theorem kind_placeholder (name : List Char) (c : Cursor) :
    (Placeholder.read name c).kind = .blank := by
  unfold Placeholder.read
  simp only
  split <;> rfl

/-- What is read at `#` is a slot, or a sequence of slots. -/
theorem kind_slot (c : Cursor) :
    (Reference.slot c).kind = .slot ∨ (Reference.slot c).kind = .slotSequence := by
  unfold Reference.slot
  split
  · exact .inr rfl
  · exact .inl rfl

/-- What a lexeme between tokens has been read as. -/
inductive FoundAs (c : Cursor) (found : Lexeme) : Prop where
  | stop (kind : found.kind = .endOfInput)
  | string (kind : found.kind = .string)
  | slot (start : c.rest.head? = some '#') (eq : found = Reference.slot c)
  | out (start : c.rest.head? = some '%') (eq : found = Reference.out c)
  | placeholder (start : c.rest.head? = some '_') (eq : found = Placeholder.read [] c)
  | symbol (starts : Name.startsAt c = true) (eq : found = symbol c)
  | numeral (starts : startsNumeral c.rest = true) (read : Numeral.read c = .ok found)
  | mark (kind : found.kind.isAtom = false)

/-- Every lexeme was found as its first characters say. -/
theorem foundAs_of_plain {c : Cursor} {found : Lexeme} (h : plain c = .ok found) :
    FoundAs c found := by
  unfold plain at h
  split at h
  · cases h
    exact .stop rfl
  · -- the cases of the scanner, in its own order
    exact .string (kind_of_quoted h)
  · rename_i hrest
    cases h
    exact .slot (by rw [hrest]; rfl) rfl
  · rename_i hrest
    cases h
    exact .out (by rw [hrest]; rfl) rfl
  · rename_i hrest
    cases h
    exact .placeholder (by rw [hrest]; rfl) rfl
  · -- an escape stands for a character of a name or for an operator
    unfold escaped at h
    split at h
    · cases h
    · split at h
      · rename_i hstarts
        cases h
        exact .symbol hstarts rfl
      · split at h
        · rename_i hoperator
          cases h
          exact .mark (isAtom_of_mem_markKinds _ (mem_markKinds_of_operator? hoperator))
        · cases h
  · split at h
    · exact .numeral ‹_› h
    · split at h
      · cases h
        exact .symbol ‹_› rfl
      · exact .mark (isAtom_of_mem_markKinds _ (mem_markKinds_of_read h))

/-- A lexeme that is a symbol or a number was read as a name or as a numeral. -/
theorem plain_cases {c : Cursor} {found : Lexeme} (h : plain c = .ok found) :
    (found.kind ≠ .symbol ∧ found.kind ≠ .number) ∨
      (Name.startsAt c = true ∧ found = symbol c) ∨
      (startsNumeral c.rest = true ∧ Numeral.read c = .ok found) := by
  cases foundAs_of_plain h with
  | stop kind => exact .inl (by simp [kind])
  | string kind => exact .inl (by simp [kind])
  | slot _ eq => rcases kind_slot c with kind | kind <;> exact .inl (by simp [eq, kind])
  | out _ eq => exact .inl (by simp [eq, Reference.out, Lexeme.verbatim])
  | placeholder _ eq => exact .inl (by simp [eq, kind_placeholder])
  | symbol starts eq => exact .inr (.inl ⟨starts, eq⟩)
  | numeral starts read => exact .inr (.inr ⟨starts, read⟩)
  | mark kind =>
    -- a mark is no atom, and symbols and numbers are
    refine .inl ⟨?_, ?_⟩ <;>
      · intro heq
        rw [heq] at kind
        cases kind

/-- A symbol has been read as a name, with no underscore behind it. -/
theorem symbol_of_plain {c : Cursor} {found : Lexeme} (h : plain c = .ok found)
    (hkind : found.kind = .symbol) :
    Name.startsAt c = true ∧ found = ⟨.symbol, (Name.read c).1, (Name.read c).2⟩ := by
  rcases plain_cases h with ⟨hne, -⟩ | ⟨hstarts, rfl⟩ | ⟨-, hread⟩
  · exact absurd hkind hne
  · refine ⟨hstarts, ?_⟩
    unfold symbol at hkind ⊢
    simp only at hkind ⊢
    split
    · -- an underscore after the name would have made it a placeholder
      rename_i hunderscore
      rw [if_pos hunderscore, kind_placeholder] at hkind
      cases hkind
    · rfl
  · obtain ⟨literal, rest, -, rfl⟩ := numeral_of_read hread
    cases hkind

/-- A number has been read as a literal. -/
theorem numeral_of_plain {c : Cursor} {found : Lexeme} (h : plain c = .ok found)
    (hkind : found.kind = .number) :
    startsNumeral c.rest = true ∧ ∃ literal rest,
      Literal.split? c.rest = some (literal, rest) ∧ found = .verbatim .number c literal rest := by
  rcases plain_cases h with ⟨-, hne⟩ | ⟨-, rfl⟩ | ⟨hstarts, hread⟩
  · exact absurd hkind hne
  · unfold symbol at hkind
    simp only at hkind
    split at hkind
    · rw [kind_placeholder] at hkind
      cases hkind
    · cases hkind
  · exact ⟨hstarts, numeral_of_read hread⟩

/-! ## Texts that are one token -/

/-- A text that is scanned has its tokens, and no fault. -/
theorem tokensFrom_of_tokenize {text : String} {tokens : List Token}
    (h : tokenize text = .ok tokens) : tokensFrom false (.ofText text) = (tokens, none) := by
  unfold tokenize Scan.tokens at h
  split at h
  · rename_i hscan
    rw [hscan, Except.ok.inj h]
  · cases h

/-- A text whose tokens come without a fault is scanned as those. -/
theorem tokenize_of_tokensFrom {text : String} {tokens : List Token}
    (h : tokensFrom false (.ofText text) = (tokens, none)) : tokenize text = .ok tokens := by
  rw [tokenize, Scan.tokens, h]

/-- A text that is scanned as one token is read as that after what is skipped. -/
theorem exists_of_tokenize {text : String} {t : Token} {stop : Location}
    (h : tokenize text = .ok [t, .endOfInput stop]) :
    ∃ place found, (Cursor.ofText text).Reaches place ∧ plain place = .ok found ∧
      found.token place = t := by
  have htokens := tokensFrom_of_tokenize h
  rw [tokensFrom] at htokens
  split at htokens
  · cases htokens
  · rename_i place hskip
    split at htokens
    · cases htokens
    · rename_i found hfound
      -- the first lexeme is the only token before the end
      refine ⟨place, found, Trivia.reaches_of_skip hskip, hfound, ?_⟩
      split at htokens
      · cases htokens
      · exact (List.cons.inj (Prod.mk.inj htokens).1).1

/-- A place that is reached with as much text left is the same place. -/
theorem eq_of_reaches {c d : Cursor} (h : c.Reaches d) (hle : c.rest.length ≤ d.rest.length) :
    d = c := by
  obtain ⟨taken, hrest, hoffset⟩ := h
  have htaken : taken = [] := by
    rw [← List.length_eq_zero_iff]
    rw [hrest, List.length_append] at hle
    omega
  subst htaken
  cases c
  cases d
  simp_all

/-- A text that is scanned as a symbol of that very name is a plain name. -/
theorem name_of_tokenize {name : String} {loc stop : Location}
    (h : tokenize name = .ok [⟨.symbol, name, loc⟩, .endOfInput stop]) :
    Name.startsAt ⟨0, name.toList⟩ = true ∧ (Name.read ⟨0, name.toList⟩).1 = name.toList := by
  obtain ⟨place, found, hreaches, hplain, htoken⟩ := exists_of_tokenize h
  obtain ⟨hkind, htext, -⟩ := Token.mk.inj htoken
  obtain ⟨hstarts, rfl⟩ := symbol_of_plain hplain hkind
  have hname : (Name.read place).1 = name.toList := by
    rw [← htext, String.toList_ofList]
  -- the name is as long as the text, so nothing is skipped before it
  have hlength := Name.length_readFrom_le true place
  rw [← Name.read, hname] at hlength
  have hle : (Cursor.ofText name).rest.length ≤ place.rest.length := by
    show name.toList.length ≤ _
    omega
  obtain rfl := eq_of_reaches hreaches hle
  exact ⟨hstarts, hname⟩

/-- The characters of a number that are scanned as one literal of it are that literal. -/
theorem literal_of_tokenize {n : Number} {t : Token} {stop : Location}
    (h : tokenize n.text = .ok [t, .endOfInput stop]) (hkind : t.kind = .number)
    (hliteral : Number.ofLiteral? t.text = some n) :
    startsNumeral n.characters = true ∧
      Literal.split? n.characters = some (n.characters, []) ∧
      Number.ofCharacters? n.characters = some n := by
  obtain ⟨place, found, hreaches, hplain, rfl⟩ := exists_of_tokenize h
  obtain ⟨hstarts, literal, rest, hsplit, rfl⟩ := numeral_of_plain hplain hkind
  have hnumber : Number.ofCharacters? literal = some n := by
    rw [← hliteral]
    show _ = Number.ofCharacters? (String.ofList literal).toList
    rw [String.toList_ofList]
  -- the literal is no shorter than what is written for its number, which is the whole text
  have hlength := Number.length_characters_le hnumber
  obtain ⟨hplace, -⟩ := Literal.append_of_split? hsplit
  have htext : (Cursor.ofText n.text).rest = n.characters := String.toList_ofList
  have hle : (Cursor.ofText n.text).rest.length ≤ place.rest.length := by
    rw [htext, hplace, List.length_append]
    omega
  have hplace' : place.rest = n.characters := by
    rw [eq_of_reaches hreaches hle, htext]
  -- nor is there anything after it
  have hrest : rest = [] := by
    rw [← List.length_eq_zero_iff]
    have hlength' := congrArg List.length (hplace'.symm.trans hplace)
    rw [List.length_append] at hlength'
    omega
  subst hrest
  rw [List.append_nil, hplace'] at hplace
  subst hplace
  rw [hplace'] at hstarts hsplit
  exact ⟨hstarts, hsplit, hnumber⟩

/-! ## Stretches of text -/

/-- From `c` on the tokens up to `d` are scanned, and then those from `d` on. -/
def Scans (c : Cursor) (tokens : List Token) (d : Cursor) : Prop :=
  tokensFrom false c = (tokens ++ (tokensFrom false d).1, (tokensFrom false d).2)

variable {tail : List Char}

/-- Where a comment is not closed there are no more tokens. -/
theorem tokensFrom_of_skip_error {expectsFilename : Bool} {c : Cursor} {e : ScanError}
    (h : Trivia.skip c = .error e) : tokensFrom expectsFilename c = ([], some e) := by
  rw [tokensFrom]
  split
  · rename_i herror
    rw [Except.error.inj (h.symm.trans herror)]
  · rename_i hplace
    cases h.symm.trans hplace

/-- At the end of the text is the end of the input. -/
theorem lexeme_nil (expectsFilename : Bool) (offset : Nat) :
    lexeme expectsFilename ⟨offset, []⟩ = .ok ⟨.endOfInput, [], ⟨offset, []⟩⟩ := by
  cases expectsFilename <;> rfl

/-- The end of the input takes no character, and every other lexeme takes some. -/
theorem reaches_of_lexeme {expectsFilename : Bool} {c : Cursor} {found : Lexeme}
    (h : lexeme expectsFilename c = .ok found) : c.Reaches found.next := by
  by_cases hne : c.rest = []
  · obtain ⟨offset, rest⟩ := c
    obtain rfl : rest = [] := hne
    cases (lexeme_nil expectsFilename offset).symm.trans h
    exact .refl _
  · exact (precedes_of_lexeme hne h).reaches

/-- Behind blanks and comments comes a lexeme, and then what is scanned behind it. -/
theorem tokensFrom_of_skip {expectsFilename : Bool} {c place : Cursor}
    (h : Trivia.skip c = .ok place) :
    tokensFrom expectsFilename c =
      match lexeme expectsFilename place with
      | .error e => ([], some e)
      | .ok found =>
        if place.rest = [] then ([found.token place], none)
        else
          (found.token place :: (tokensFrom found.kind.takesFilename found.next).1,
            (tokensFrom found.kind.takesFilename found.next).2) := by
  rw [tokensFrom]
  split
  · -- the blanks and comments are skipped, so this does not happen
    rename_i herror
    cases h.symm.trans herror
  · rename_i place' hplace
    obtain rfl := Except.ok.inj (h.symm.trans hplace)
    split
    · rename_i hfound
      rw [hfound]
    · rename_i hfound
      rw [hfound]
      rfl

namespace Scans

/-- Stretches of a text are scanned one after the other. -/
theorem trans {c d e : Cursor} {tokens tokens' : List Token} (h : Scans c tokens d)
    (h' : Scans d tokens' e) : Scans c (tokens ++ tokens') e := by
  unfold Scans at h h' ⊢
  rw [h, h', List.append_assoc]

/-- What is skipped does not show in the tokens. -/
theorem of_skip_eq {c d : Cursor} (h : Trivia.skip c = Trivia.skip d) : Scans c [] d := by
  unfold Scans
  cases hskip : Trivia.skip d with
  | error e => rw [tokensFrom_of_skip_error (h.trans hskip), tokensFrom_of_skip_error hskip]; rfl
  | ok place => rw [tokensFrom_of_skip (h.trans hskip), tokensFrom_of_skip hskip]; rfl

/-- A blank between tokens is no token. -/
theorem space (offset : Nat) (cs : List Char) :
    Scans ⟨offset, ' ' :: cs⟩ [] ⟨offset + 1, cs⟩ :=
  of_skip_eq (skip_space offset cs)

end Scans

/-- A lexeme with nothing to skip before it is a token. -/
theorem scans_of_plain {c : Cursor} {found : Lexeme} (hskip : Trivia.skip c = .ok c)
    (hread : plain c = .ok found) (hne : c.rest ≠ [])
    (hkind : found.kind.takesFilename = false) : Scans c [found.token c] found.next := by
  have hlexeme : lexeme false c = .ok found := hread
  unfold Scans
  rw [tokensFrom_of_skip hskip, hlexeme]
  simp only [if_neg hne, hkind]
  rfl

/-- A whole text that is scanned up to its end. -/
theorem tokenize_of_scans {text : String} {tokens : List Token} {offset : Nat}
    (h : Scans ⟨0, text.toList⟩ tokens ⟨offset, []⟩) :
    tokenize text = .ok (tokens ++ [.endOfInput (.ofOffsets offset offset)]) := by
  have hend : tokensFrom false ⟨offset, []⟩ = ([.endOfInput (.ofOffsets offset offset)], none) := by
    rw [tokensFrom_of_skip (skip_nil offset)]
    rfl
  unfold Scans at h
  rw [hend] at h
  exact tokenize_of_tokensFrom h

/-! ## Names -/

/-- The characters that decide alone what a lexeme is. -/
def decisiveStarts : List Char :=
  ['"', '#', '%', '_', '\\']

/-- A character that does not decide alone leaves three kinds of lexeme: a number, a name, or a
    mark. -/
theorem plain_cons {c : Char} (hc : ∀ d ∈ decisiveStarts, c ≠ d) (offset : Nat) (cs : List Char) :
    plain ⟨offset, c :: cs⟩ =
      if startsNumeral (c :: cs) then Numeral.read ⟨offset, c :: cs⟩
      else if Name.startsAt ⟨offset, c :: cs⟩ then .ok (symbol ⟨offset, c :: cs⟩)
      else Mark.read ⟨offset, c :: cs⟩ := by
  unfold plain
  split
  · rename_i heq
    cases heq
  · exact absurd (List.cons.inj ‹_›).1 (hc '"' (by decide))
  · exact absurd (List.cons.inj ‹_›).1 (hc '#' (by decide))
  · exact absurd (List.cons.inj ‹_›).1 (hc '%' (by decide))
  · exact absurd (List.cons.inj ‹_›).1 (hc '_' (by decide))
  · exact absurd (List.cons.inj ‹_›).1 (hc '\\' (by decide))
  · rfl

/-- The digits. -/
def digits : List Char :=
  ['0', '1', '2', '3', '4', '5', '6', '7', '8', '9']

/-- The digits are the ten that are listed. -/
theorem mem_digits_of_isDigit {c : Char} (h : c.isDigit = true) : c ∈ digits := by
  -- there are ten code points to look at
  have hrange : c.toNat ∈ List.range' 48 10 := by
    simp only [Char.isDigit, Bool.and_eq_true, decide_eq_true_eq, ge_iff_le,
      UInt32.le_iff_toNat_le] at h
    simp only [List.mem_range'_1]
    exact ⟨h.1, Nat.lt_succ_of_le h.2⟩
  have hall : ∀ n ∈ List.range' 48 10, Char.ofNat n ∈ digits := by
    decide
  have hc := hall c.toNat hrange
  rwa [Char.ofNat_toNat] at hc

/-- The characters that no name starts with, although no operator starts with them either. -/
def otherStarts : List Char :=
  decisiveStarts ++ ['.', '('] ++ digits ++ Text.blanks

/-- None of the other characters that start a lexeme starts a name. -/
theorem startsName_otherStarts : ∀ c ∈ otherStarts, Character.startsName c = false := by
  have hall : otherStarts.any Character.startsName = false := by
    decide +kernel
  simpa using hall

/-- Digits are among those characters. -/
theorem mem_otherStarts_of_isDigit {c : Char} (h : c.isDigit = true) : c ∈ otherStarts :=
  List.mem_append_left _ (List.mem_append_right _ (mem_digits_of_isDigit h))

/-- What stands at the start of a name starts nothing else. -/
theorem notMem_otherStarts_of_belongs {c : Char} {next : Cursor}
    (h : (Glyph.mk c false next).belongs true = true) : c ∉ otherStarts := by
  intro hmem
  simp only [Glyph.belongs, Glyph.marksContext, startsName_otherStarts c hmem, if_true,
    Bool.or_false, Bool.and_eq_true, beq_iff_eq] at h
  -- only a context mark is left, which is none of them
  obtain ⟨⟨-, rfl⟩, -⟩ := h
  exact absurd hmem (by decide)

/-- A name is read where it starts. -/
theorem plain_of_belongs {c : Char} {cs : List Char} (offset : Nat)
    (h : (Glyph.mk c false ⟨offset + c.utf8Size, cs⟩).belongs true = true) :
    Trivia.skip ⟨offset, c :: cs⟩ = .ok ⟨offset, c :: cs⟩ ∧
      plain ⟨offset, c :: cs⟩ = .ok (symbol ⟨offset, c :: cs⟩) := by
  have hother := notMem_otherStarts_of_belongs h
  have hne : ∀ d ∈ otherStarts, c ≠ d := by
    rintro d hd rfl
    exact hother hd
  -- it is no blank, no digit and no point, and none of the characters that decide alone
  have hblank : Text.isBlank c = false := by
    rw [Text.isBlank, List.contains_eq_mem, decide_eq_false_iff_not]
    intro hmem
    exact hother (List.mem_append_right _ hmem)
  have hnumeral : ¬startsNumeral (c :: cs) = true := by
    have hdigit : ¬c.isDigit = true := fun hdigit => hother (mem_otherStarts_of_isDigit hdigit)
    unfold startsNumeral
    split
    · exact absurd (List.cons.inj ‹_›).1 (hne '.' (by decide))
    · exact hdigit
  -- so a name is what starts there
  have hstarts : Name.startsAt ⟨offset, c :: cs⟩ = true := by
    rw [Name.startsAt, Glyph.at?_cons (hne '\\' (by decide)), Option.any_some, h]
  have hdecisive : ∀ d ∈ decisiveStarts, c ≠ d :=
    fun d hd => hne d (List.mem_append_left _ (List.mem_append_left _ (List.mem_append_left _ hd)))
  refine ⟨skip_cons hblank (hne '(' (by decide)) offset cs, ?_⟩
  rw [plain_cons hdecisive, if_neg hnumeral, if_pos hstarts]

/-- A name that is read as itself is one token before a boundary. -/
theorem scans_name (htail : AtBoundary tail) {cs : List Char} (hne : cs ≠ [])
    (hname : (Name.read ⟨0, cs⟩).1 = cs) (offset : Nat) :
    ∃ loc, Scans ⟨offset, cs ++ tail⟩ [⟨.symbol, .ofList cs, loc⟩]
      ⟨offset + Text.byteLength cs, tail⟩ := by
  have hread : Name.read ⟨offset, cs ++ tail⟩ = (cs, ⟨offset + Text.byteLength cs, tail⟩) :=
    Name.readFrom_append htail hname offset
  -- with no underscore after it, the name is a symbol
  have hunderscore : tail.head? ≠ some '_' := by
    intro heq
    exact absurd (htail '_' heq) (by decide)
  have hsymbol : symbol ⟨offset, cs ++ tail⟩ =
      ⟨.symbol, cs, ⟨offset + Text.byteLength cs, tail⟩⟩ := by
    unfold symbol
    rw [hread]
    exact if_neg hunderscore
  cases cs with
  | nil => exact absurd rfl hne
  | cons c cs =>
    obtain ⟨-, hbelongs, -⟩ := Name.glyph_of_readFrom hname
    rw [← Glyph.belongs_append htail true c cs (offset + c.utf8Size)] at hbelongs
    obtain ⟨hskip, hplain⟩ := plain_of_belongs offset hbelongs
    rw [← List.cons_append, hsymbol] at hplain
    exact ⟨_, scans_of_plain hskip hplain (by simp) rfl⟩

/-- A name before a boundary is one token. -/
theorem scans_symbol (htail : AtBoundary tail) {name : String} {loc stop : Location}
    (h : tokenize name = .ok [⟨.symbol, name, loc⟩, .endOfInput stop]) (offset : Nat) :
    ∃ t, t.kind = .symbol ∧ t.text = name ∧
      Scans ⟨offset, name.toList ++ tail⟩ [t]
        ⟨offset + Text.byteLength name.toList, tail⟩ := by
  obtain ⟨hstarts, hname⟩ := name_of_tokenize h
  have hne : name.toList ≠ [] := by
    intro hnil
    rw [hnil] at hstarts
    cases hstarts
  obtain ⟨loc, hscans⟩ := scans_name htail hne hname offset
  exact ⟨_, rfl, String.ofList_toList, hscans⟩

/-! ## Numerals -/

/-- The characters that a numeral can start with. -/
def numeralStarts : List Char :=
  '.' :: digits

/-- A text that starts a number does so with a digit or a point, and still does when it goes on. -/
theorem exists_of_startsNumeral {cs : List Char} (h : startsNumeral cs = true) :
    ∃ c rest, cs = c :: rest ∧ c ∈ numeralStarts ∧ ∀ tail, startsNumeral (cs ++ tail) = true := by
  unfold startsNumeral at h
  split at h
  · -- a point, with a digit behind it
    rename_i rest
    refine ⟨'.', rest, rfl, List.mem_cons_self, fun tail => ?_⟩
    cases rest with
    | nil => cases h
    | cons c rest => exact h
  · -- a digit
    rename_i hpoint
    cases cs with
    | nil => cases h
    | cons c rest =>
      have hdigit : c.isDigit = true := h
      refine ⟨c, rest, rfl, List.mem_cons_of_mem _ (mem_digits_of_isDigit hdigit), fun tail => ?_⟩
      rw [List.cons_append]
      unfold startsNumeral
      split
      · rename_i heq
        obtain ⟨rfl, -⟩ := List.cons.inj heq
        exact (hpoint rest rfl).elim
      · exact hdigit

/-- What starts like a numeral is read as one. -/
theorem plain_of_startsNumeral {cs : List Char} (offset : Nat) (h : startsNumeral cs = true) :
    Trivia.skip ⟨offset, cs⟩ = .ok ⟨offset, cs⟩ ∧
      plain ⟨offset, cs⟩ = Numeral.read ⟨offset, cs⟩ := by
  obtain ⟨c, rest, rfl, hc, -⟩ := exists_of_startsNumeral h
  have hall : ∀ c ∈ numeralStarts, Text.isBlank c = false ∧ c ≠ '(' ∧
      ∀ d ∈ decisiveStarts, c ≠ d := by
    simp [numeralStarts, digits, decisiveStarts, Text.isBlank, Text.blanks]
  obtain ⟨hblank, hcomment, hdecisive⟩ := hall c hc
  refine ⟨skip_cons hblank hcomment offset rest, ?_⟩
  rw [plain_cons hdecisive, if_pos h]

/-- A literal is read before a boundary. -/
theorem plain_of_split? (htail : AtBoundary tail) {cs : List Char}
    (hstarts : startsNumeral cs = true) (hsplit : Literal.split? cs = some (cs, []))
    (offset : Nat) :
    Trivia.skip ⟨offset, cs ++ tail⟩ = .ok ⟨offset, cs ++ tail⟩ ∧
      plain ⟨offset, cs ++ tail⟩ = .ok (.verbatim .number ⟨offset, cs ++ tail⟩ cs tail) := by
  obtain ⟨c, rest, hcs, -, happend⟩ := exists_of_startsNumeral hstarts
  obtain ⟨hskip, hplain⟩ := plain_of_startsNumeral offset (happend tail)
  -- at a boundary the literal cannot be longer
  have hsplit' : Literal.split? (cs ++ tail) = some (cs, tail) := by
    rw [split?_append htail.endsLiteral, hsplit]
    rfl
  refine ⟨hskip, hplain.trans ?_⟩
  unfold Numeral.read
  simp only [hsplit']
  split
  · -- a boundary is no precision mark and no exponent mark
    exact absurd rfl (htail.ne_cons (by decide) _)
  · exact absurd rfl (htail.ne_cons (by decide) _)
  · rfl

/-- A literal before a boundary is one token, from its first character to its last. -/
theorem scans_literal (htail : AtBoundary tail) {cs : List Char} (hstarts : startsNumeral cs = true)
    (hsplit : Literal.split? cs = some (cs, [])) (offset : Nat) :
    Scans ⟨offset, cs ++ tail⟩
      [⟨.number, .ofList cs, .ofOffsets offset (offset + Text.byteLength cs)⟩]
      ⟨offset + Text.byteLength cs, tail⟩ := by
  obtain ⟨c, rest, hcs, -⟩ := exists_of_startsNumeral hstarts
  obtain ⟨hskip, hplain⟩ := plain_of_split? htail hstarts hsplit offset
  exact scans_of_plain hskip hplain (by simp [hcs]) rfl

/-- A literal before a boundary is one number, wherever it stands. -/
theorem scans_numeral (htail : AtBoundary tail) {cs : List Char} (hstarts : startsNumeral cs = true)
    (hsplit : Literal.split? cs = some (cs, [])) (offset : Nat) :
    ∃ t, t.kind = .number ∧ t.text = .ofList cs ∧
      Scans ⟨offset, cs ++ tail⟩ [t] ⟨offset + Text.byteLength cs, tail⟩ :=
  ⟨_, rfl, rfl, scans_literal htail hstarts hsplit offset⟩

/-! ## Strings -/

/-- A character that is no backslash stands for itself in a string. -/
theorem piece_cons {c : Char} (hc : c ≠ '\\') (start offset : Nat) (rest : List Char) :
    Quoted.piece start ⟨offset, c :: rest⟩ = .ok ([c], ⟨offset + c.utf8Size, rest⟩) := by
  unfold Quoted.piece
  split
  · exact absurd (List.cons.inj ‹_›).1 hc
  · rename_i heq
    obtain ⟨rfl, rfl⟩ := List.cons.inj heq
    rfl
  · cases ‹_ = []›

/-- A character is read back from how it is written in a string. -/
theorem piece_quotedCharacter (start offset : Nat) (c : Char) (rest : List Char) :
    Quoted.piece start ⟨offset, Expr.quotedCharacter c ++ rest⟩ =
      .ok ([c], ⟨offset + Text.byteLength (Expr.quotedCharacter c), rest⟩) := by
  unfold Expr.quotedCharacter
  split
  · rfl
  · rfl
  · rfl
  · rfl
  · rename_i hbackslash _ _
    exact piece_cons hbackslash start offset rest

/-- No character is written so that it closes the string. -/
theorem quotedCharacter_ne_quote (c : Char) (rest tail : List Char) :
    Expr.quotedCharacter c ++ rest ≠ '"' :: tail := by
  unfold Expr.quotedCharacter
  split
  · simp
  · simp
  · simp
  · simp
  · rename_i hquote _ _ _
    intro heq
    exact hquote (List.cons.inj heq).1

/-- What a string says is what its first piece stands for, and then the rest. -/
theorem body_of_piece {start : Nat} {c next : Cursor} {text : List Char}
    (hquote : ∀ tail, c.rest ≠ '"' :: tail) (h : Quoted.piece start c = .ok (text, next)) :
    Quoted.body start c = (Quoted.body start next).map fun found => (text ++ found.1, found.2) := by
  rw [Quoted.body]
  split
  · rename_i heq
    exact absurd heq (hquote _)
  · split
    · rename_i herror
      cases h.symm.trans herror
    · rename_i hpiece
      obtain ⟨rfl, rfl⟩ := Prod.mk.inj (Except.ok.inj (h.symm.trans hpiece))
      cases Quoted.body start next <;> rfl

/-- Quoted characters are read back up to the closing quote. -/
theorem body_quoted (start offset : Nat) (value rest : List Char) :
    Quoted.body start ⟨offset, value.flatMap Expr.quotedCharacter ++ '"' :: rest⟩ =
      .ok (value, ⟨offset + Text.byteLength (value.flatMap Expr.quotedCharacter ++ ['"']),
        rest⟩) := by
  -- induction on the characters of the string, each of which is quoted by itself
  induction value generalizing offset with
  | nil => rw [List.flatMap_nil, List.nil_append, Quoted.body]; rfl
  | cons c value ih =>
    have hpiece := piece_quotedCharacter start offset c
      (value.flatMap Expr.quotedCharacter ++ '"' :: rest)
    rw [List.flatMap_cons, List.append_assoc,
      body_of_piece (quotedCharacter_ne_quote c _) hpiece, ih]
    simp only [Except.map, List.cons_append, List.nil_append, Text.byteLength_append,
      Nat.add_assoc]

/-- A string in quotes is one token, whatever follows it. -/
theorem scans_string (value : String) (tail : List Char) (offset : Nat) :
    ∃ t, t.kind = .string ∧ t.text = value ∧
      Scans ⟨offset, Expr.quoted value ++ tail⟩ [t]
        ⟨offset + Text.byteLength (Expr.quoted value), tail⟩ := by
  let body := value.toList.flatMap Expr.quotedCharacter
  have htext : Expr.quoted value ++ tail = '"' :: (body ++ '"' :: tail) := by
    simp [Expr.quoted, body]
  -- what is between the quotes is read up to the closing one, which no character of the string is
  -- taken for
  have hread : plain ⟨offset, '"' :: (body ++ '"' :: tail)⟩ =
      .ok ⟨.string, value.toList, ⟨offset + Text.byteLength (Expr.quoted value), tail⟩⟩ := by
    show quoted .string _ = _
    have hbody := body_quoted offset (offset + 1) value.toList tail
    have hopening : Quoted.read ⟨offset, '"' :: (body ++ '"' :: tail)⟩ =
        Quoted.body offset ⟨offset + 1, body ++ '"' :: tail⟩ := rfl
    have hlength : Text.byteLength (Expr.quoted value) = 1 + Text.byteLength (body ++ ['"']) := rfl
    rw [quoted, hopening, hbody, hlength, Nat.add_assoc]
    rfl
  have hskip := skip_cons (by decide : Text.isBlank '"' = false) (by decide) offset
    (body ++ '"' :: tail)
  rw [htext]
  refine ⟨_, rfl, ?_, scans_of_plain hskip hread (by simp) rfl⟩
  exact String.ofList_toList

/-! ## Operators and brackets -/

/-- The operators and brackets of a full form. -/
def formMarks : List (Char × TokenKind) :=
  [('[', .leftBracket), (']', .rightBracket), (',', .comma), ('-', .minus)]

/-- Brackets, commas and signs are tokens if they are found by their spelling. -/
theorem scans_mark {c : Char} {kind : TokenKind} (hmark : (c, kind) ∈ formMarks)
    {cs : List Char} (hascii : Mark.ascii? (c :: cs) = some (kind, cs)) (offset : Nat) :
    ∃ t, t.kind = kind ∧ Scans ⟨offset, c :: cs⟩ [t] ⟨offset + 1, cs⟩ := by
  -- the marks of full forms are one character each, and none of them starts anything else
  have hall : ∀ mark ∈ formMarks, Text.isBlank mark.1 = false ∧ mark.1.isDigit = false ∧
      Character.startsName mark.1 = false ∧ mark.2.spelling.toList = [mark.1] ∧
      mark.1.utf8Size = 1 ∧ mark.2.takesFilename = false ∧
      mark.1 ∉ ['(', '.', '\u0060'] ++ decisiveStarts := by
    decide +kernel
  obtain ⟨hblank, hdigit, hname, hspelling, hsize, hfilename, hother⟩ := hall _ hmark
  dsimp only at hblank hdigit hname hspelling hsize hfilename hother
  have hne : ∀ d ∈ ['(', '.', '\u0060'] ++ decisiveStarts, c ≠ d := by
    rintro d hd rfl
    exact hother hd
  have hdecisive : ∀ d ∈ decisiveStarts, c ≠ d :=
    fun d hd => hne d (List.mem_append_right _ hd)
  have hnumeral : ¬startsNumeral (c :: cs) = true := by
    unfold startsNumeral
    split
    · exact absurd (List.cons.inj ‹_›).1 (hne '.' (by decide))
    · simp [hdigit]
  have hstarts : ¬Name.startsAt ⟨offset, c :: cs⟩ = true := by
    rw [Name.startsAt, Glyph.at?_cons (hdecisive '\\' (by decide)), Option.any_some]
    simp [Glyph.belongs, Glyph.marksContext, hne '\u0060' (by decide), hname]
  -- so only a mark can be read there, and it is the one that is spelled
  have hread : plain ⟨offset, c :: cs⟩ = .ok (.verbatim kind ⟨offset, c :: cs⟩ [c] cs) := by
    have hmarkRead : Mark.read ⟨offset, c :: cs⟩ =
        .ok (.verbatim kind ⟨offset, c :: cs⟩ [c] cs) := by
      rw [Mark.read, hascii]
      simp only [hspelling]
    rw [plain_cons hdecisive, if_neg hnumeral, if_neg hstarts, hmarkRead]
  have hskip := skip_cons hblank (hne '(' (by decide)) offset cs
  have hscans := scans_of_plain hskip hread (by simp) hfilename
  have hnext : (Cursor.mk offset (c :: cs)).after [c] cs = ⟨offset + 1, cs⟩ := by
    simp [Cursor.after, hsize]
  rw [Lexeme.verbatim, hnext] at hscans
  exact ⟨_, rfl, hscans⟩

/-- An opening bracket is one token. -/
theorem scans_leftBracket (offset : Nat) (cs : List Char) :
    ∃ t, t.kind = .leftBracket ∧ Scans ⟨offset, '[' :: cs⟩ [t] ⟨offset + 1, cs⟩ :=
  scans_mark (by decide) rfl offset

/-- So is a closing one. -/
theorem scans_rightBracket (offset : Nat) (cs : List Char) :
    ∃ t, t.kind = .rightBracket ∧ Scans ⟨offset, ']' :: cs⟩ [t] ⟨offset + 1, cs⟩ :=
  scans_mark (by decide) rfl offset

/-- So is a comma. -/
theorem scans_comma (offset : Nat) (cs : List Char) :
    ∃ t, t.kind = .comma ∧ Scans ⟨offset, ',' :: cs⟩ [t] ⟨offset + 1, cs⟩ :=
  scans_mark (by decide) rfl offset

/-- A sign before a numeral is a token of its own. -/
theorem scans_minus (offset : Nat) {cs : List Char} (hstarts : startsNumeral cs = true) :
    ∃ t, t.kind = .minus ∧ Scans ⟨offset, '-' :: cs⟩ [t] ⟨offset + 1, cs⟩ := by
  obtain ⟨c, rest, rfl, hc, -⟩ := exists_of_startsNumeral hstarts
  refine scans_mark (by decide) ?_ offset
  -- no longer mark starts with a sign and a digit or a point
  simp only [numeralStarts, digits, List.mem_cons, List.not_mem_nil, or_false] at hc
  rcases hc with rfl | rfl | rfl | rfl | rfl | rfl | rfl | rfl | rfl | rfl | rfl <;> rfl

end Symbolic.Scan
