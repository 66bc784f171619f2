import Symbolic.Proofs.Layout.Pieces

/-!
# Lexemes elsewhere

What a lexeme takes of the text is read as the same lexeme wherever else it stands, as long as what
follows it there cannot be taken for a part of it. The scanners look at what follows a lexeme before
they end it, so each of them is gone through: what it has taken decides what it takes, and before a
boundary it takes no more.

## Key results

- `Stable`: a lexeme that is read alike elsewhere
- `exists_stable_lexeme`: every lexeme but the end of the input is so
-/

namespace Symbolic.Scan

/-- What `read` has found at `c` takes `source`, and `read` finds it wherever `source` stands before
    a boundary. -/
structure Stable (read : Cursor → Except ScanError Lexeme) (c : Cursor) (found : Lexeme)
    (source : List Char) : Prop where
  passes : c.Passes source found.next
  ne_nil : source ≠ []
  kind : found.kind ≠ .endOfInput
  again : ∀ offset tail, AtBoundary tail → read ⟨offset, source ++ tail⟩ =
    .ok { found with next := ⟨offset + Text.byteLength source, tail⟩ }

variable {c : Cursor} {found : Lexeme}

/-- A symbol, or a blank, is read where a name starts. -/
theorem plain_of_startsAt (h : Name.startsAt c = true) : plain c = .ok (symbol c) := by
  obtain ⟨offset, rest⟩ := c
  cases rest with
  | nil => cases h
  | cons d rest =>
    by_cases hescape : d = '\\'
    · subst hescape
      -- an escape that starts a name is one
      show escaped _ = _
      unfold escaped
      split
      · rename_i herror
        simp [Name.startsAt, Glyph.at?, herror] at h
      · rw [if_pos h]
    · rw [Name.startsAt, Glyph.at?_cons hescape, Option.any_some] at h
      exact (plain_of_belongs offset h).2

/-- A symbol is read as the same lexeme elsewhere. -/
theorem exists_stable_symbol (h : Name.startsAt c = true) :
    ∃ source, Stable plain c (symbol c) source := by
  obtain ⟨source, hne, hpasses, hread⟩ := Name.exists_read_append h
  by_cases hunderscore : (Name.read c).2.rest.head? = some '_'
  · -- the name of a blank
    have hsymbol : symbol c = Placeholder.read (Name.read c).1 (Name.read c).2 := if_pos hunderscore
    obtain ⟨marks, hhead, hmarks, hblank⟩ :=
      Placeholder.exists_read_append (Name.read c).1 hunderscore
    refine ⟨source ++ marks, ?_, by simp [hne], ?_, fun offset tail htail => ?_⟩
    · rw [hsymbol]
      exact hpasses.trans hmarks
    · simp [hsymbol, kind_placeholder]
    · obtain ⟨after, rfl⟩ := List.head?_eq_some_iff.mp hhead
      obtain ⟨hstarts, hname⟩ := hread offset ('_' :: after ++ tail) (Name.endsName_underscore _)
      rw [List.append_assoc, plain_of_startsAt hstarts, symbol, hname]
      refine congrArg Except.ok ((if_pos rfl).trans ?_)
      rw [hblank _ _ htail, hsymbol, Text.byteLength_append, Nat.add_assoc]
  · have hsymbol : symbol c = ⟨.symbol, (Name.read c).1, (Name.read c).2⟩ := if_neg hunderscore
    refine ⟨source, ?_, hne, by simp [hsymbol], fun offset tail htail => ?_⟩
    · rw [hsymbol]
      exact hpasses
    · obtain ⟨hstarts, hname⟩ := hread offset tail (Name.endsName_of_atBoundary htail)
      rw [plain_of_startsAt hstarts, symbol, hname, hsymbol]
      refine congrArg Except.ok (if_neg fun hhead => ?_)
      exact absurd (htail '_' hhead) (by decide)

/-- So is a blank. -/
theorem exists_stable_placeholder (h : c.rest.head? = some '_') :
    ∃ source, Stable plain c (Placeholder.read [] c) source := by
  obtain ⟨source, hhead, hpasses, hread⟩ := Placeholder.exists_read_append [] h
  obtain ⟨after, rfl⟩ := List.head?_eq_some_iff.mp hhead
  refine ⟨'_' :: after, hpasses, by simp, by simp [kind_placeholder], fun offset tail htail => ?_⟩
  exact congrArg Except.ok (hread offset tail htail)

/-- So is a string. -/
theorem exists_stable_quoted {kind : TokenKind} (hkind : kind ≠ .endOfInput)
    (hc : c.rest.head? = some '"') (h : quoted kind c = .ok found) :
    ∃ source, source.head? = some '"' ∧ Stable (quoted kind) c found source := by
  obtain ⟨rest, hrest⟩ := List.head?_eq_some_iff.mp hc
  unfold quoted at h
  cases hread : Quoted.read c with
  | error e => simp [hread, Except.map] at h
  | ok found' =>
    simp only [hread, Except.map, Except.ok.injEq] at h
    subst h
    obtain ⟨source, hpasses, hbody⟩ := Quoted.exists_body_append hread
    -- the opening quote, and behind it all of the string with its closing quote
    have hopening : c.Passes ['"'] (c.after ['"'] c.rest.tail) :=
      Cursor.passes_after (by simp [hrest])
    refine ⟨'"' :: source, rfl, hopening.trans hpasses, by simp, hkind, fun offset tail _ => ?_⟩
    have hread' : Quoted.read ⟨offset, '"' :: (source ++ tail)⟩ =
        Quoted.body offset ⟨offset + 1, source ++ tail⟩ := rfl
    rw [List.cons_append, quoted, hread', hbody, Text.byteLength_cons, ← Nat.add_assoc]
    rfl

/-- So is a lexeme that keeps its text, if it is read again from that text. -/
theorem stable_verbatim {read : Cursor → Except ScanError Lexeme} {kind : TokenKind}
    {taken rest : List Char} (hrest : c.rest = taken ++ rest) (hne : taken ≠ [])
    (hkind : kind ≠ .endOfInput)
    (again : ∀ offset tail, AtBoundary tail → read ⟨offset, taken ++ tail⟩ =
      .ok (.verbatim kind ⟨offset, taken ++ tail⟩ taken tail)) :
    Stable read c (.verbatim kind c taken rest) taken :=
  ⟨Cursor.passes_after hrest, hne, hkind, again⟩

/-- The run of characters of a class that depends on how the text starts is the same before a
    boundary, if the class is. -/
theorem takeWhile_taken_append (classOf : List Char → Char → Bool) (rest : List Char)
    {tail : List Char} (htail : AtBoundary tail)
    (hboundary : ∀ c ∈ boundaries, classOf rest c = false)
    (hclass : classOf (rest.takeWhile (classOf rest) ++ tail) = classOf rest) :
    (rest.takeWhile (classOf rest) ++ tail).takeWhile
        (classOf (rest.takeWhile (classOf rest) ++ tail)) = rest.takeWhile (classOf rest) ∧
      (rest.takeWhile (classOf rest) ++ tail).dropWhile
        (classOf (rest.takeWhile (classOf rest) ++ tail)) = tail := by
  have hend : ∀ c ∈ tail.head?, classOf rest c = false := fun c hc => hboundary c (htail c hc)
  rw [hclass]
  exact ⟨Literal.takeWhile_append_of_all List.all_takeWhile hend,
    Literal.dropWhile_append_of_all List.all_takeWhile hend⟩

/-- What is taken starts as the text did, or else neither the text nor what follows goes on. -/
theorem head?_taken_append {p q : Char → Bool} {rest tail : List Char} (htail : AtBoundary tail)
    (hboundary : ∀ c ∈ boundaries, q c = false)
    (himp : rest.head?.any q = true → rest.head?.any p = true) :
    (rest.takeWhile p ++ tail).head?.any q = rest.head?.any q := by
  have htail' := htail.any_eq_false hboundary
  cases rest with
  | nil => exact htail'
  | cons d rest =>
    by_cases hd : p d = true
    · simp [hd]
    · have hq : q d = false := Bool.eq_false_iff.mpr fun h => hd (himp h)
      simp [hd, hq, htail']

section References

open Reference

variable (rest : List Char) {tail : List Char}

/-- No boundary goes on with a slot. -/
theorem slotCharacter_boundary : ∀ c ∈ boundaries, slotCharacter rest c = false := by
  unfold slotCharacter
  split <;> decide

/-- What goes on with a slot is seen from its own text. -/
theorem slotCharacter_taken_append (h : AtBoundary tail) :
    slotCharacter (rest.takeWhile (slotCharacter rest) ++ tail) = slotCharacter rest := by
  have hdigit := head?_taken_append (p := slotCharacter rest) h isDigit_boundary fun hdigit => by
    rwa [slotCharacter, if_pos hdigit]
  rw [slotCharacter, hdigit]
  rfl

/-- No boundary goes on with a reference to an output. -/
theorem outCharacter_boundary : ∀ c ∈ boundaries, outCharacter rest c = false := by
  unfold outCharacter
  split <;> decide

/-- What goes on with a reference to an output is seen from its own text. -/
theorem outCharacter_taken_append (h : AtBoundary tail) :
    outCharacter (rest.takeWhile (outCharacter rest) ++ tail) = outCharacter rest := by
  have hsome : ∀ cs : List Char, cs.head? = some '%' ↔ cs.head?.any (· == '%') = true := by
    intro cs
    cases cs <;> simp
  -- which characters are taken depends on whether the first one is another sign
  have hpercent : (rest.takeWhile (outCharacter rest) ++ tail).head? = some '%' ↔
      rest.head? = some '%' := by
    rw [hsome, hsome, head?_taken_append h (by decide)]
    intro hpercent
    rwa [outCharacter, if_pos ((hsome rest).mpr hpercent)]
  rw [outCharacter]
  simp only [hpercent]
  rfl

end References

/-- A slot is read as the same lexeme elsewhere. -/
theorem exists_stable_slot (h : c.rest.head? = some '#') :
    ∃ source, Stable plain c (Reference.slot c) source := by
  obtain ⟨rest, hrest⟩ := List.head?_eq_some_iff.mp h
  unfold Reference.slot
  split
  · rename_i after htail
    rw [hrest, List.tail_cons] at htail
    subst htail
    refine ⟨_, stable_verbatim (by simp [hrest]) (by simp) (by simp) fun offset tail hend => ?_⟩
    obtain ⟨htake, hdrop⟩ := takeWhile_taken_append (fun _ => Char.isDigit) after hend
      isDigit_boundary rfl
    show Except.ok (Reference.slot _) = _
    simp only [Reference.slot, List.cons_append, List.tail_cons, htake, hdrop]
  · -- a name or digits, of a class that the first character after the mark decides
    rename_i hnot
    simp only [hrest, List.tail_cons] at hnot ⊢
    refine ⟨_, stable_verbatim (by simp [hrest]) (by simp) (by simp) fun offset tail hend => ?_⟩
    obtain ⟨htake, hdrop⟩ := takeWhile_taken_append Reference.slotCharacter rest hend
      (slotCharacter_boundary rest) (slotCharacter_taken_append rest hend)
    show Except.ok (Reference.slot _) = _
    unfold Reference.slot
    split
    · -- a second mark would have been taken before
      rename_i after hafter
      have hnone : rest.head?.any (· == '#') = false := by
        cases rest with
        | nil => rfl
        | cons d rest => simpa using fun heq : d = '#' => hnot rest (by rw [heq])
      have hhash := head?_taken_append hend (by decide) (p := Reference.slotCharacter rest)
        fun hsome => absurd hsome (Bool.eq_false_iff.mp hnone)
      rw [hnone, show _ ++ tail = '#' :: after from hafter] at hhash
      cases hhash
    · simp only [List.cons_append, List.tail_cons, htake, hdrop]

/-- So is a reference to an output. -/
theorem exists_stable_out (h : c.rest.head? = some '%') :
    ∃ source, Stable plain c (Reference.out c) source := by
  obtain ⟨rest, hrest⟩ := List.head?_eq_some_iff.mp h
  unfold Reference.out
  simp only [hrest, List.tail_cons]
  refine ⟨_, stable_verbatim (by simp [hrest]) (by simp) (by simp) fun offset tail hend => ?_⟩
  obtain ⟨htake, hdrop⟩ := takeWhile_taken_append Reference.outCharacter rest hend
    (outCharacter_boundary rest) (outCharacter_taken_append rest hend)
  show Except.ok (Reference.out _) = _
  simp only [Reference.out, List.cons_append, List.tail_cons, htake, hdrop]

/-- So is a number. -/
theorem exists_stable_numeral (h : Numeral.read c = .ok found) :
    ∃ source, Stable plain c found source := by
  obtain ⟨literal, rest, hsplit, rfl⟩ := numeral_of_read h
  obtain ⟨hrest, hne⟩ := Literal.append_of_split? hsplit
  refine ⟨literal, stable_verbatim hrest hne (by simp) fun offset tail htail => ?_⟩
  obtain ⟨parts, hparts, rfl⟩ := Literal.exists_parts_of_split? hsplit
  exact (plain_of_split? htail (Number.startsNumeral_text hparts) hparts.split?_text offset).2

/-! ### Operators and brackets -/

/-- A mark is spelled where its text stands, unless it gives up its point to a digit. -/
theorem spelled?_eq_some_iff {kind : TokenKind} {cs rest : List Char} :
    Mark.spelled? kind cs = some rest ↔
      cs = kind.spelling.toList ++ rest ∧
        (Mark.losesPoint kind && rest.head?.any Char.isDigit) = false := by
  rw [Mark.spelled?, Option.filter_eq_some_iff, Text.strip?_eq_some_iff, Bool.not_eq_true']

/-- Behind its first character no spelling has a character that a boundary starts with. -/
theorem spelling_boundary : ∀ kind ∈ Mark.kinds, ∀ c ∈ kind.spelling.toList.tail,
    c ∉ boundaries := by
  decide +kernel

/-- A spelling that stands at the start of a text before a boundary was there before. -/
theorem exists_spelled?_of_append {kind : TokenKind} (hkind : kind ∈ Mark.kinds)
    {source tail after : List Char} (hne : source ≠ []) (htail : AtBoundary tail)
    (h : Mark.spelled? kind (source ++ tail) = some after) (rest : List Char) :
    (∃ after', Mark.spelled? kind (source ++ rest) = some after') ∨
      source = kind.spelling.toList ∧ Mark.losesPoint kind = true := by
  obtain ⟨happend, hpoint⟩ := spelled?_eq_some_iff.mp h
  obtain ⟨c, source, rfl⟩ := List.exists_cons_of_ne_nil hne
  obtain ⟨d, mark, hmark⟩ := List.exists_cons_of_ne_nil (Mark.spelling_ne_nil kind)
  have hboundary := spelling_boundary kind hkind
  rw [hmark] at happend hboundary
  obtain ⟨rfl, hafter⟩ := List.cons.inj happend
  obtain ⟨more, rfl, rfl⟩ := exists_of_append_eq (htail.avoids hboundary) hafter
  cases more with
  | nil =>
    -- the longer mark would end with this one: it is the same, or gives up its point to a digit
    by_cases hloses : Mark.losesPoint kind = true
    · exact .inr ⟨by simp [hmark], hloses⟩
    · refine .inl ⟨rest, spelled?_eq_some_iff.mpr ⟨by simp [hmark], by simp [hloses]⟩⟩
  | cons e more =>
    exact .inl ⟨e :: more ++ rest, spelled?_eq_some_iff.mpr ⟨by simp [hmark], hpoint⟩⟩

/-- No two kinds are spelled alike. -/
theorem spelling_injective : ∀ kind ∈ Mark.kinds, ∀ kind' ∈ Mark.kinds,
    kind.spelling.toList = kind'.spelling.toList → kind = kind' := by
  decide +kernel

/-- The longest spelling is found again where nothing else follows it that belongs to one. -/
theorem ascii?_append {kind : TokenKind} {tail rest : List Char} (htail : AtBoundary tail)
    (h : Mark.ascii? (kind.spelling.toList ++ rest) = some (kind, rest)) :
    Mark.ascii? (kind.spelling.toList ++ tail) = some (kind, tail) := by
  obtain ⟨hmem, hspelled⟩ := mem_kinds_of_ascii? h
  obtain ⟨before, kind', after, hkinds, hkind', hbefore⟩ := List.findSome?_eq_some_iff.mp h
  obtain rfl : kind' = kind := by
    simp only [Option.map_eq_some_iff, Prod.mk.injEq] at hkind'
    obtain ⟨_, -, rfl, -⟩ := hkind'
    rfl
  have hdigit := htail.any_eq_false isDigit_boundary
  have hspelled' : Mark.spelled? kind' (kind'.spelling.toList ++ tail) = some tail :=
    spelled?_eq_some_iff.mpr ⟨rfl, by simp [hdigit]⟩
  -- the kind is found again, provided that no earlier one is found instead
  refine List.findSome?_eq_some_iff.mpr ⟨before, kind', after, hkinds, ?_, ?_⟩
  · rw [hspelled', Option.map_some]
  · intro earlier hearlier
    have hnone := hbefore earlier hearlier
    rw [Option.map_eq_none_iff] at hnone ⊢
    have hmem' : earlier ∈ Mark.kinds := by
      rw [hkinds]
      exact List.mem_append_left _ hearlier
    cases hsome : Mark.spelled? earlier (kind'.spelling.toList ++ tail) with
    | none => rfl
    | some found =>
      rcases exists_spelled?_of_append hmem' (Mark.spelling_ne_nil kind') htail hsome rest
        with ⟨found', hfound'⟩ | ⟨hsame, -⟩
      · rw [hnone] at hfound'
        cases hfound'
      · -- it would be the very kind that was found
        obtain rfl := spelling_injective _ hmem _ hmem' hsame
        rw [hnone] at hspelled
        cases hspelled

/-- Where no operator was found by its spelling before, none is found now. -/
theorem ascii?_eq_none {c : Char} {tail rest : List Char} (htail : AtBoundary tail)
    (h : Mark.ascii? (c :: rest) = none) : Mark.ascii? (c :: tail) = none := by
  unfold Mark.ascii? at h ⊢
  rw [List.findSome?_eq_none_iff] at h ⊢
  intro kind hkind
  have hnone := h kind hkind
  rw [Option.map_eq_none_iff] at hnone ⊢
  cases hsome : Mark.spelled? kind (c :: tail) with
  | none => rfl
  | some found =>
    rcases exists_spelled?_of_append hkind (List.cons_ne_nil c []) htail hsome rest
      with ⟨found', hfound'⟩ | ⟨hsame, hloses⟩
    · rw [show Mark.spelled? kind (c :: rest) = some found' from hfound'] at hnone
      cases hnone
    · -- operators that can lose a point have more than one character
      have hlong : ∀ kind ∈ Mark.kinds, Mark.losesPoint kind = true →
          1 < kind.spelling.toList.length := by
        decide +kernel
      have hlength := hlong kind hkind hloses
      rw [← hsame] at hlength
      simp at hlength

/-- What an operator or a bracket is read from is read as that again. -/
theorem exists_mark_append (hc : c.rest ≠ []) (h : Mark.read c = .ok found) :
    ∃ source, Stable Mark.read c found source := by
  have hkind := ne_endOfInput_of_mem_markKinds (mem_markKinds_of_read h)
  unfold Mark.read at h
  split at h
  · -- an operator in ASCII
    rename_i kind rest hascii
    cases h
    obtain ⟨hrest, -⟩ := spelled?_eq_some_iff.mp (mem_kinds_of_ascii? hascii).2
    refine ⟨_, stable_verbatim hrest (Mark.spelling_ne_nil kind) hkind fun offset tail htail => ?_⟩
    rw [hrest] at hascii
    rw [Mark.read, ascii?_append htail hascii]
  · rename_i hascii
    split at h
    · -- an operator of a single other character
      rename_i kind hoperator
      cases h
      obtain ⟨d, rest, hrest⟩ := List.exists_cons_of_ne_nil hc
      rw [hrest] at hascii hoperator
      have hoperator' : Character.operator? d = some kind := hoperator
      refine ⟨_, stable_verbatim (List.take_append_drop 1 c.rest).symm (by simp [hrest]) hkind
        fun offset tail htail => ?_⟩
      rw [hrest]
      show Mark.read ⟨offset, d :: tail⟩ = _
      simp only [Mark.read, ascii?_eq_none htail hascii, List.head?_cons, Option.bind_some,
        hoperator']
      rfl
    · cases h

/-- What starts with an escape is read as the same operator or symbol again. -/
theorem exists_stable_escaped {rest : List Char} (hc : c.rest = '\\' :: rest)
    (h : escaped c = .ok found) : ∃ source, Stable plain c found source := by
  unfold escaped at h
  split at h
  · cases h
  · rename_i escape hread
    split at h
    · rename_i hstarts
      cases h
      exact exists_stable_symbol hstarts
    · rename_i hstarts
      split at h
      · -- an operator that is written by an escape
        rename_i kind hoperator
        cases h
        obtain ⟨hrest, hne⟩ := Escape.source_append_rest_of_read hread
        have hkind := ne_endOfInput_of_mem_markKinds (mem_markKinds_of_operator? hoperator)
        refine ⟨_, stable_verbatim hrest hne hkind fun offset tail _ => ?_⟩
        obtain ⟨after, hafter, -⟩ := (Escape.passes_next hread).exists_cons hne hc
        have hread' := Escape.read_append hread offset tail
        rw [Name.startsAt_of_escape hread] at hstarts
        rw [hafter] at hread' ⊢
        have hstarts' := Name.startsAt_of_escape hread'
        rw [← hstarts'] at hstarts
        show escaped _ = _
        rw [escaped, hread']
        simp only [if_neg hstarts, hoperator]
      · cases h

/-! ### Any lexeme -/

/-- What is read by its spelling is so elsewhere: what follows makes no numeral or name of it. -/
theorem plain_append_eq_mark {d : Char} (hd : ∀ e ∈ decisiveStarts, d ≠ e) {offset : Nat}
    {source rest tail : List Char} (htail : AtBoundary tail)
    (hnumeral : ¬startsNumeral (d :: (source ++ rest)) = true)
    (hname : ¬Name.startsAt ⟨offset, d :: (source ++ rest)⟩ = true) (offset' : Nat) :
    plain ⟨offset', d :: (source ++ tail)⟩ = Mark.read ⟨offset', d :: (source ++ tail)⟩ := by
  -- the next character is the same, or it is neither a digit nor the start of a name
  have hnext : ∀ q : Char → Bool, (∀ c ∈ boundaries, q c = false) →
      (source ++ tail).head?.any q = true → (source ++ rest).head?.any q = true := by
    intro q hq h
    cases source with
    | nil => exact absurd h (Bool.eq_false_iff.mp (htail.any_eq_false hq))
    | cons e source => exact h
  have hnumeral' : ¬startsNumeral (d :: (source ++ tail)) = true := by
    by_cases hpoint : d = '.'
    · subst hpoint
      exact fun h => hnumeral (hnext Char.isDigit isDigit_boundary h)
    · have hstarts : ∀ cs, startsNumeral (d :: cs) = d.isDigit := by
        intro cs
        unfold startsNumeral
        split
        · exact absurd (List.cons.inj ‹_›).1 hpoint
        · rfl
      rwa [hstarts] at hnumeral ⊢
  have hname' : ¬Name.startsAt ⟨offset', d :: (source ++ tail)⟩ = true := by
    have hescape : d ≠ '\\' := hd '\\' (by decide)
    rw [Name.startsAt, Glyph.at?_cons hescape, Option.any_some] at hname ⊢
    simp only [Glyph.belongs, Glyph.marksContext, Bool.or_eq_true, Bool.and_eq_true, if_true,
      not_or] at hname ⊢
    exact ⟨fun h => hname.1 ⟨h.1, hnext _ Glyph.startsName_boundary h.2⟩, hname.2⟩
  rw [plain_cons hd, if_neg hnumeral', if_neg hname']

/-- Every lexeme between tokens is read as itself again, before any boundary. -/
theorem exists_stable_plain (hc : c.rest ≠ []) (h : plain c = .ok found) :
    ∃ source, Stable plain c found source := by
  obtain ⟨offset, rest⟩ := c
  obtain ⟨d, rest, rfl⟩ := List.exists_cons_of_ne_nil hc
  by_cases hd : ∀ e ∈ decisiveStarts, d ≠ e
  · rw [plain_cons hd] at h
    split at h
    · exact exists_stable_numeral h
    · rename_i hnumeral
      split at h
      · cases h
        exact exists_stable_symbol ‹_›
      · rename_i hname
        -- neither a number nor a name starts here, and none will start elsewhere
        obtain ⟨source, hstable⟩ := exists_mark_append hc h
        obtain ⟨after, rfl, hrest⟩ := hstable.passes.exists_cons hstable.ne_nil rfl
        refine ⟨_, hstable.passes, hstable.ne_nil, hstable.kind, fun offset' tail htail => ?_⟩
        rw [hrest] at hnumeral hname
        rw [← hstable.again offset' tail htail]
        exact plain_append_eq_mark hd htail hnumeral hname offset'
  · have hmem : d ∈ decisiveStarts := by simpa using hd
    -- the character alone decides: a string, a reference, a blank or an escape
    simp only [decisiveStarts, List.mem_cons, List.not_mem_nil, or_false] at hmem
    rcases hmem with rfl | rfl | rfl | rfl | rfl
    · obtain ⟨source, hhead, hstable⟩ := exists_stable_quoted (by simp) rfl
        (show quoted .string _ = .ok found from h)
      obtain ⟨after, rfl⟩ := List.head?_eq_some_iff.mp hhead
      exact ⟨_, hstable.passes, hstable.ne_nil, hstable.kind, hstable.again⟩
    · cases h
      exact exists_stable_slot rfl
    · cases h
      exact exists_stable_out rfl
    · cases h
      exact exists_stable_placeholder rfl
    · exact exists_stable_escaped rfl h

/-- Every lexeme but the end of the input is read as itself again, before any boundary. -/
theorem exists_stable_lexeme {expectsFilename : Bool} (hc : c.rest ≠ [])
    (h : lexeme expectsFilename c = .ok found) :
    ∃ source, Stable (lexeme expectsFilename) c found source := by
  cases expectsFilename with
  | false => exact exists_stable_plain hc h
  | true =>
    obtain ⟨d, rest, hrest⟩ := List.exists_cons_of_ne_nil hc
    replace h : filename c = .ok found := h
    unfold filename at h
    split at h
    · -- the name of a file in quotes
      rename_i hquote
      obtain ⟨source, hhead, hstable⟩ := exists_stable_quoted (by simp) hquote h
      obtain ⟨after, rfl⟩ := List.head?_eq_some_iff.mp hhead
      refine ⟨_, hstable.passes, hstable.ne_nil, hstable.kind, fun offset tail htail => ?_⟩
      exact (if_pos rfl).trans (hstable.again offset tail htail)
    · rename_i hquote
      split at h
      · -- the name of a file without quotes
        rename_i hcharacter
        cases h
        have hd : isFilenameCharacter d = true := by simpa [hrest] using hcharacter
        have hne : d ≠ '"' := by
          rintro rfl
          exact absurd hd (by decide)
        refine ⟨_, stable_verbatim (List.takeWhile_append_dropWhile ..).symm (by simp [hrest, hd])
          (by simp) fun offset tail htail => ?_⟩
        have hboundary : ∀ c ∈ boundaries, isFilenameCharacter c = false := by
          decide
        obtain ⟨htake, hdrop⟩ := takeWhile_taken_append (fun _ => isFilenameCharacter) c.rest
          htail hboundary rfl
        have hhead : (c.rest.takeWhile isFilenameCharacter ++ tail).head? = some d := by
          simp [hrest, hd]
        show filename _ = _
        unfold filename
        simp only [hhead, htake, hdrop, Option.any_some, hd, if_true]
        exact if_neg (by simpa using hne)
      · -- no name of a file, and none elsewhere, as this depends on the first character
        rename_i hcharacter
        obtain ⟨source, hstable⟩ := exists_stable_plain hc h
        obtain ⟨after, rfl, -⟩ := hstable.passes.exists_cons hstable.ne_nil hrest
        refine ⟨_, hstable.passes, hstable.ne_nil, hstable.kind, fun offset tail htail => ?_⟩
        rw [hrest] at hquote hcharacter
        exact (if_neg hquote).trans ((if_neg hcharacter).trans (hstable.again offset tail htail))

end Symbolic.Scan
