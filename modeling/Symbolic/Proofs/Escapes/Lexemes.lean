import Symbolic.Proofs.Escapes.Names

/-!
# Lexemes in another spelling

A lexeme is the same whether a character behind it, or in it, is written plainly or by an escape.
This leaves out strings and file names that hold the character, and places where the backslash of
the escape would be taken for a part of a file name. A lexeme that is none, or the one right behind
it, may be at fault for a backquote that marks a context only before the plain character.

## Key results

- `Trips`: the backquote stands before a lexeme, or right behind it
- `plain_respelled`, `filename_respelled`, `lexeme_respelled`: lexemes
-/

namespace Symbolic

open Character

variable {char : Char} {escape post : List Char}

namespace Scan

/-! ## Lexemes -/

/-- A mistaken mark is where the lexeme should be, or right behind it. -/
inductive Trips (char : Char) (escape post : List Char)
    (read : Cursor → Except ScanError Lexeme) (c : Cursor) : Prop
  | here (read : read c = plain c) (mistaken : Mistaken char escape post c)
  | behind {found : Lexeme} (read : read c = .ok found)
      (kind : found.kind.takesFilename = false) (mistaken : Mistaken char escape post found.next)

/-- A lexeme that does not reach into opaque texts is the same before the character and before the
    escape. -/
theorem respelled_of_extends {read read' read'' : Except ScanError Lexeme}
    (hchar : Extends (char :: post) read read') (hescape : Extends (escape ++ post) read read'') :
    Outcome (Lexeme.Respelled char escape post) read' read'' := by
  refine (hchar.join hescape).mono ?_
  rintro _ _ ⟨found, rfl, rfl⟩
  exact ⟨rfl, .inl rfl, .before found.next⟩

/-- A symbol is respelled, or the backquote stands before it or behind it. -/
theorem symbol_trips (h : Respells char escape) {read : Cursor → Except ScanError Lexeme}
    {c : Cursor}
    (hchar : read (c.followedBy (char :: post)) = .ok (symbol (c.followedBy (char :: post))))
    (hescape : read (c.followedBy (escape ++ post)) =
      .ok (symbol (c.followedBy (escape ++ post)))) :
    Outcome (Lexeme.Respelled char escape post) (read (c.followedBy (char :: post)))
        (read (c.followedBy (escape ++ post))) ∨
      Trips char escape post read (c.followedBy (escape ++ post)) := by
  rcases symbol_respelled h post c with hrespelled | hmistaken
  · rw [hchar, hescape]
    exact .inl (.found hrespelled)
  · exact .inr (.behind hescape (takesFilename_symbol _) hmistaken)

/-- What an escape starts is told by the character that it stands for. -/
theorem escaped_of_read {c : Cursor} {found : Escape} (h : Escape.read c = .ok found) :
    escaped c = if startsName found.char then .ok (symbol c)
      else match operator? found.char with
        | some kind => .ok (.verbatim kind c found.source found.rest)
        | none => .error (.between c.offset (found.next c).offset .unrecognizedToken) := by
  have hstarts := Name.startsAt_of_escape h
  cases hoperator : operator? found.char <;> simp only [escaped, h, hstarts, hoperator]

/-- No number starts with a foreign character. -/
theorem startsNumeral_of_foreign {first : Char} (h : Foreign first) (rest : List Char) :
    startsNumeral (first :: rest) = false := by
  unfold startsNumeral
  split
  · exact absurd (List.cons.inj ‹_›).1 (h.ne (by decide))
  · exact h.isDigit

/-- A name starts at a character that starts one. -/
theorem startsAt_char (h : Respells char escape) (offset : Nat) (post : List Char) :
    Name.startsAt ⟨offset, char :: post⟩ = startsName char := by
  have hmark : (char == '\u0060') = false := beq_eq_false_iff_ne.mpr (h.ne (by decide))
  rw [Name.startsAt, Glyph.at?_cons (h.ne (by decide)), Option.any_some]
  simp [Glyph.belongs, Glyph.marksContext, hmark]

/-- The character itself is a name or an operator, or starts nothing, and so is its escape. -/
theorem plain_char (h : Respells char escape) (post : List Char) {c : Cursor}
    (hnil : c.rest = []) :
    Outcome (Lexeme.Respelled char escape post) (plain (c.followedBy (char :: post)))
        (plain (c.followedBy (escape ++ post))) ∨
      Trips char escape post plain (c.followedBy (escape ++ post)) := by
  obtain ⟨offset, cs⟩ := c
  obtain rfl : cs = [] := hnil
  -- the plain character starts a name, or else an operator
  have hchar : plain (Cursor.followedBy ⟨offset, []⟩ (char :: post)) =
      if startsName char then .ok (symbol (Cursor.followedBy ⟨offset, []⟩ (char :: post)))
      else Mark.read ⟨offset, char :: post⟩ := by
    have hdecisive : ∀ d ∈ decisiveStarts, char ≠ d := fun d hd =>
      h.ne ((show ∀ d ∈ decisiveStarts, d.toNat ≤ 127 by decide) d hd)
    refine (plain_cons hdecisive offset post).trans ?_
    rw [startsNumeral_of_foreign h.foreign, startsAt_char h]
    rfl
  -- the escape is decoded first
  have hescape : plain (Cursor.followedBy ⟨offset, []⟩ (escape ++ post)) =
      escaped ⟨offset, escape ++ post⟩ := by
    obtain ⟨inner, rfl, -⟩ := h.spells.exists_cons
    rfl
  rw [escaped_of_read (h.spells.read_append offset post)] at hescape
  cases hstarts : startsName char with
  | true =>
    rw [if_pos hstarts] at hchar hescape
    exact symbol_trips h hchar hescape
  | false =>
    have hmark : Mark.ascii? (char :: post) = none := Mark.ascii?_before [] (h.opaque_char post)
    rw [hstarts] at hchar hescape
    rw [hchar, hescape, Mark.read, hmark]
    refine .inl ?_
    simp only [List.head?_cons, Option.bind_some]
    cases hoperator : operator? char with
    | some kind => exact .found ⟨rfl, .inr ⟨hoperator, rfl, rfl⟩, .behind rfl (Nat.le_refl _)⟩
    | none => exact .fault rfl

/-- What an escape starts is respelled. -/
theorem escaped_respelled (h : Respells char escape) (post : List Char) {c : Cursor}
    (hne : c.rest ≠ []) :
    Outcome (Lexeme.Respelled char escape post) (escaped (c.followedBy (char :: post)))
        (escaped (c.followedBy (escape ++ post))) ∨
      Trips char escape post escaped (c.followedBy (escape ++ post)) := by
  have hread := (Escape.read_before hne (h.opaque_char post)).join
    (Escape.read_before hne (h.opaque_escape post))
  generalize hchar : Escape.read (c.followedBy (char :: post)) = read,
    hescape : Escape.read (c.followedBy (escape ++ post)) = read' at hread
  cases hread with
  | fault same =>
    rw [escaped, escaped, hchar, hescape]
    exact .inl (.fault same)
  | found related =>
    -- the same character in both, which starts a name, an operator or nothing
    obtain ⟨found, rfl, rfl⟩ := related
    have hchar := escaped_of_read hchar
    have hescape := escaped_of_read hescape
    dsimp only at hchar hescape
    cases hstarts : startsName found.char with
    | true =>
      rw [if_pos hstarts] at hchar hescape
      exact symbol_trips h hchar hescape
    | false =>
      rw [hstarts] at hchar hescape
      rw [hchar, hescape]
      refine .inl ?_
      cases operator? found.char with
      | some kind => exact .found ⟨rfl, .inl rfl, .before (c.after found.source found.rest)⟩
      | none => exact .fault rfl

/-- A string that ends before the character is respelled. -/
theorem quoted_respelled (h : Respells char escape) {kind : TokenKind} {c : Cursor}
    (hne : c.rest ≠ [])
    (hends : ∀ found, quoted kind (c.followedBy (char :: post)) = .ok found →
      post.length < found.next.rest.length) :
    Outcome (Lexeme.Respelled char escape post) (quoted kind (c.followedBy (char :: post)))
      (quoted kind (c.followedBy (escape ++ post))) := by
  obtain ⟨offset, cs⟩ := c
  obtain ⟨first, rest, rfl⟩ := List.exists_cons_of_ne_nil hne
  have hbody := Quoted.body_respelled h offset
    (c := Cursor.after ⟨offset, first :: rest⟩ ['"'] rest) fun text next hnext =>
      hends ⟨kind, text, next⟩ (congrArg (Except.map _) hnext)
  -- the opening quote is before the changed character, so only the body is concerned
  have hread : ∀ more, quoted kind (Cursor.followedBy ⟨offset, first :: rest⟩ more) =
      (Quoted.body offset ((Cursor.after ⟨offset, first :: rest⟩ ['"'] rest).followedBy more)).map
        fun found => ⟨kind, found.1, found.2⟩ :=
    fun _ => rfl
  rw [hread, hread]
  exact hbody.map fun _ _ agree => ⟨rfl, .inl agree.text, agree.next⟩

/-- Readers that agree at the place trip alike. -/
theorem Trips.congr {read read' : Cursor → Except ScanError Lexeme} {c : Cursor}
    (h : Trips char escape post read c) (heq : read' c = read c) :
    Trips char escape post read' c := by
  cases h with
  | here read mistaken => exact .here (heq.trans read) mistaken
  | behind read kind mistaken => exact .behind (heq.trans read) kind mistaken

/-- Whether a number starts is the same before what is opaque. -/
theorem startsNumeral_before {tail : List Char} (htail : Opaque tail) (first : Char)
    (rest : List Char) :
    startsNumeral (first :: (rest ++ tail)) = startsNumeral (first :: rest) := by
  unfold startsNumeral
  split
  · rename_i heq
    obtain ⟨rfl, rfl⟩ := List.cons.inj heq
    exact htail.head?_any (fun _ => Foreign.isDigit) rest
  · rename_i hpoint
    split
    · rename_i heq
      obtain ⟨rfl, rfl⟩ := List.cons.inj heq
      exact (hpoint _ rfl).elim
    · rfl

/-- Where the first character does not decide alone what the lexeme is, there is a number, a name or
    an operator. -/
theorem plain_undecided (h : Respells char escape) (post : List Char) {offset : Nat} {first : Char}
    {rest : List Char} (hfirst : ∀ d ∈ decisiveStarts, first ≠ d) :
    Outcome (Lexeme.Respelled char escape post)
        (plain (Cursor.followedBy ⟨offset, first :: rest⟩ (char :: post)))
        (plain (Cursor.followedBy ⟨offset, first :: rest⟩ (escape ++ post))) ∨
      Trips char escape post plain
        (Cursor.followedBy ⟨offset, first :: rest⟩ (escape ++ post)) := by
  have hne : (Cursor.mk offset (first :: rest)).rest ≠ [] := List.cons_ne_nil _ _
  -- a number, a name or an operator, told before anything that is opaque
  have hplain : ∀ tail, Opaque tail → plain (Cursor.followedBy ⟨offset, first :: rest⟩ tail) =
      if startsNumeral (first :: rest) then
        Numeral.read (Cursor.followedBy ⟨offset, first :: rest⟩ tail)
      else if Name.startsAt (Cursor.followedBy ⟨offset, first :: rest⟩ tail) then
        .ok (symbol (Cursor.followedBy ⟨offset, first :: rest⟩ tail))
      else Mark.read (Cursor.followedBy ⟨offset, first :: rest⟩ tail) := by
    intro tail htail
    refine (plain_cons hfirst offset (rest ++ tail)).trans ?_
    rw [startsNumeral_before htail]
    rfl
  have hchar := hplain _ (h.opaque_char post)
  have hescape := hplain _ (h.opaque_escape post)
  by_cases hnumeral : startsNumeral (first :: rest) = true
  · rw [if_pos hnumeral] at hchar hescape
    rw [hchar, hescape]
    exact .inl (respelled_of_extends (Numeral.read_before _ (h.opaque_char post))
      (Numeral.read_before _ (h.opaque_escape post)))
  rw [if_neg hnumeral] at hchar hescape
  -- a name starts in both, unless a backquote is taken for no part of it
  rcases Name.startsAt_respelled h post hne with hstarts | hmistaken
  · rw [hstarts] at hchar
    cases hname : Name.startsAt (Cursor.followedBy ⟨offset, first :: rest⟩ (escape ++ post)) with
    | true =>
      rw [hname, if_pos rfl] at hchar hescape
      exact symbol_trips h hchar hescape
    | false =>
      rw [hname, if_neg Bool.false_ne_true] at hchar hescape
      rw [hchar, hescape]
      exact .inl (respelled_of_extends (Mark.read_before hne (h.opaque_char post))
        (Mark.read_before hne (h.opaque_escape post)))
  · exact .inr (.here rfl hmistaken)

/-- Lexemes are read alike, unless a mark is mistaken. -/
theorem plain_respelled (h : Respells char escape) {c : Cursor}
    (hstring : ∀ found, plain (c.followedBy (char :: post)) = .ok found → found.kind = .string →
      post.length < found.next.rest.length) :
    Outcome (Lexeme.Respelled char escape post) (plain (c.followedBy (char :: post)))
        (plain (c.followedBy (escape ++ post))) ∨
      Trips char escape post plain (c.followedBy (escape ++ post)) := by
  by_cases hnil : c.rest = []
  · exact plain_char h post hnil
  obtain ⟨offset, cs⟩ := c
  obtain ⟨first, rest, rfl⟩ := List.exists_cons_of_ne_nil hnil
  -- the first character chooses the branch, unless that is left to names, numbers and marks
  rcases decisive_cases first with hfirst | rfl | rfl | rfl | rfl | rfl
  · exact plain_undecided h post hfirst
  · refine .inl (quoted_respelled h hnil fun found hfound => hstring found hfound ?_)
    exact kind_of_quoted hfound
  · exact .inl (respelled_of_extends (.found (Reference.slot_before rfl (h.opaque_char post)))
      (.found (Reference.slot_before rfl (h.opaque_escape post))))
  · exact .inl (respelled_of_extends (.found (Reference.out_before rfl (h.opaque_char post)))
      (.found (Reference.out_before rfl (h.opaque_escape post))))
  · refine (Placeholder.read_respelled h post [] rfl).imp .found fun hmistaken => ?_
    exact .behind rfl (by rw [kind_placeholder]; rfl) hmistaken
  · exact (escaped_respelled h post hnil).imp_right fun htrips => htrips.congr rfl

/-- The character belongs to no file name. -/
theorem isFilenameCharacter_of_respells (h : Respells char escape) :
    isFilenameCharacter char = false := by
  rw [isFilenameCharacter, h.foreign.isAlphanum, Bool.false_or, List.contains_eq_mem,
    decide_eq_false_iff_not]
  intro hmem
  have hall : ∀ d ∈ ['\u0060', '/', '.', '\\', '!', '-', ':', '_', '$', '*', '~', '?'],
      d.toNat ≤ 127 := by
    decide
  exact h.ne (hall char hmem) rfl

/-- Where a file name is expected, the character and its escape are at least one character behind
    where that would be. -/
theorem filename_respelled (h : Respells char escape) {c : Cursor}
    (hoperand : (c.rest ++ char :: post).dropWhile isFilenameCharacter ≠ char :: post)
    (hquoted : ∀ found, filename (c.followedBy (char :: post)) = .ok found →
      found.kind = .string ∨ found.kind = .filename → post.length < found.next.rest.length) :
    Outcome (Lexeme.Respelled char escape post) (filename (c.followedBy (char :: post)))
        (filename (c.followedBy (escape ++ post))) ∨
      Trips char escape post filename (c.followedBy (escape ++ post)) := by
  -- the character ends a bare file name
  have hname : (char :: post).head?.any isFilenameCharacter = false :=
    isFilenameCharacter_of_respells h
  rw [dropWhile_append_of_head hname] at hoperand
  have hdrop : c.rest.dropWhile isFilenameCharacter ≠ [] := fun hnil => hoperand (by rw [hnil]; rfl)
  have hne : c.rest ≠ [] := by
    intro hnil
    simp [hnil] at hdrop
  have hhead : ∀ more, (c.followedBy more).rest.head? = c.rest.head? :=
    fun more => List.head?_append_of_ne_nil _ hne
  -- quoted, bare, or no file name at all
  by_cases hquote : c.rest.head? = some '"'
  · have hread : ∀ more, filename (c.followedBy more) = quoted .filename (c.followedBy more) :=
      fun more => if_pos ((hhead more).trans hquote)
    rw [hread] at hquoted ⊢
    rw [hread]
    refine .inl (quoted_respelled h hne fun found hfound => hquoted found hfound (.inr ?_))
    exact kind_of_quoted hfound
  by_cases hbare : c.rest.head?.any isFilenameCharacter = true
  · have hread : ∀ more, filename (c.followedBy more) =
        .ok ((Lexeme.verbatim .filename c (c.rest.takeWhile isFilenameCharacter)
          (c.rest.dropWhile isFilenameCharacter)).followedBy more) := by
      intro more
      rw [filename, hhead, if_neg hquote, if_pos hbare]
      exact congrArg Except.ok (Reference.verbatim_runs .filename c [] hdrop more)
    rw [hread, hread]
    exact .inl (.found ⟨rfl, .inl rfl, .before _⟩)
  · have hread : ∀ more, filename (c.followedBy more) = plain (c.followedBy more) := by
      intro more
      rw [filename, hhead, if_neg hquote, if_neg hbare]
    rw [hread] at hquoted ⊢
    rw [hread]
    have hplain := plain_respelled h fun found hfound hkind => hquoted found hfound (.inl hkind)
    exact hplain.imp_right fun htrips => htrips.congr (hread _)

/-- Lexemes are read alike outside of strings and file names, unless a mark is mistaken. -/
theorem lexeme_respelled (h : Respells char escape) {expectsFilename : Bool} {c : Cursor}
    (hoperand : expectsFilename = true →
      (c.rest ++ char :: post).dropWhile isFilenameCharacter ≠ char :: post)
    (hquoted : ∀ found, lexeme expectsFilename (c.followedBy (char :: post)) = .ok found →
      found.kind = .string ∨ found.kind = .filename → post.length < found.next.rest.length) :
    Outcome (Lexeme.Respelled char escape post)
        (lexeme expectsFilename (c.followedBy (char :: post)))
        (lexeme expectsFilename (c.followedBy (escape ++ post))) ∨
      Trips char escape post (lexeme expectsFilename) (c.followedBy (escape ++ post)) := by
  cases expectsFilename with
  | false => exact plain_respelled h fun found hfound hkind => hquoted found hfound (.inl hkind)
  | true => exact filename_respelled h (hoperand rfl) hquoted

end Scan

end Symbolic
