import Symbolic.Proofs.Scanning.PlainName

/-!
# The tokens of a text

Every token of a scanned text was read at some place in it. So its text has the form that its kind
says: a symbol is a plain name, a number a literal, and a blank is made of underscores with a
plain name or nothing on either side.

## Key results

- `Visits`, `exists_visits_of_mem_tokensFrom`: the places where scanning looks for lexemes
- `foundAs_of_mem_tokenize`: every token was read at some place
- `AtomText`, `atomText_of_mem_tokenize`: the texts of atoms
-/

namespace Symbolic.Scan

/-! ## Tokens as lexemes -/

/-- Scanning from `c` on comes to the place, and looks for a lexeme there. The flags say whether the
    name of a file may come first. -/
inductive Visits : Bool → Cursor → Bool → Cursor → Prop
  | here {expects : Bool} {c place : Cursor} (skip : Trivia.skip c = .ok place) :
      Visits expects c expects place
  | later {expects expects' : Bool} {c place place' : Cursor} {found : Lexeme}
      (skip : Trivia.skip c = .ok place) (ne_nil : place.rest ≠ [])
      (read : lexeme expects place = .ok found)
      (visits : Visits found.kind.takesFilename found.next expects' place') :
      Visits expects c expects' place'

theorem Visits.reaches {expects expects' : Bool} {c place : Cursor}
    (h : Visits expects c expects' place) : c.Reaches place := by
  induction h with
  | here skip => exact Trivia.reaches_of_skip skip
  | later skip ne_nil read _ ih =>
    exact ((Trivia.reaches_of_skip skip).trans_precedes
      (precedes_of_lexeme ne_nil read)).reaches.trans ih

/-- Every token is a lexeme at a place that scanning comes to. -/
theorem exists_visits_of_mem_tokensFrom {expects : Bool} {c : Cursor} {t : Token}
    (h : t ∈ (tokensFrom expects c).1) : ∃ expects' place found,
      Visits expects c expects' place ∧ lexeme expects' place = .ok found ∧
        t = found.token place := by
  -- induction on what is left of the text: the token is the next one or comes later
  induction hn : c.rest.length using Nat.strongRecOn generalizing expects c with
  | _ n ih =>
    subst hn
    rw [tokensFrom] at h
    split at h
    · cases h
    · rename_i place hskip
      split at h
      · cases h
      · rename_i found hfound
        split at h
        · exact ⟨_, place, found, .here hskip, hfound, List.mem_singleton.mp h⟩
        · rename_i hrest
          rcases List.mem_cons.mp h with rfl | hmem
          · exact ⟨_, place, found, .here hskip, hfound, rfl⟩
          · have hlt := ((Trivia.reaches_of_skip hskip).trans_precedes
              (precedes_of_lexeme hrest hfound)).length_lt
            obtain ⟨expects', place', found', hvisits, hread, heq⟩ := ih _ hlt hmem rfl
            exact ⟨expects', place', found', .later hskip hrest hfound hvisits, hread, heq⟩

theorem lexeme_of_mem_tokensFrom {expectsFilename : Bool} {c : Cursor} {t : Token}
    (h : t ∈ (tokensFrom expectsFilename c).1) :
    ∃ expects place found, lexeme expects place = .ok found ∧ t = found.token place := by
  obtain ⟨expects, place, found, -, hread, heq⟩ := exists_visits_of_mem_tokensFrom h
  exact ⟨expects, place, found, hread, heq⟩

/-- A lexeme that is no name of a file is read as if none were expected. -/
theorem plain_of_lexeme {expectsFilename : Bool} {c : Cursor} {found : Lexeme}
    (h : lexeme expectsFilename c = .ok found) (hkind : found.kind ≠ .filename) :
    plain c = .ok found := by
  unfold lexeme at h
  split at h
  · unfold filename at h
    split at h
    · exact absurd (kind_of_quoted h) hkind
    · split at h
      · cases h
        exact absurd rfl hkind
      · exact h
  · exact h

/-- Every token of a text that is no name of a file was read between tokens. -/
theorem foundAs_of_mem_tokenize {text : String} {tokens : List Token} {t : Token}
    (h : tokenize text = .ok tokens) (ht : t ∈ tokens) (hkind : t.kind ≠ .filename) :
    ∃ place found, FoundAs place found ∧ t = found.token place := by
  have htokens : t ∈ (tokensFrom false (.ofText text)).1 := by
    rw [tokensFrom_of_tokenize h]
    exact ht
  obtain ⟨expects, place, found, hlexeme, rfl⟩ := lexeme_of_mem_tokensFrom htokens
  exact ⟨place, found, foundAs_of_plain (plain_of_lexeme hlexeme hkind), rfl⟩

/-! ## The texts of atoms -/

/-- The text has the form that the kind of atom says. -/
inductive AtomText : TokenKind → List Char → Prop where
  | symbol {name : List Char} (plain : Name.IsPlain name) : AtomText .symbol name
  | number {literal tail : List Char}
      (split : Literal.split? (literal ++ tail) = some (literal, tail)) : AtomText .number literal
  | string (value : List Char) : AtomText .string value
  | filename (value : List Char) : AtomText .filename value
  | slot (name : List Char) : AtomText .slot ('#' :: name)
  | slotSequence {digits : List Char} (isDigits : digits.all Char.isDigit = true) :
      AtomText .slotSequence ('#' :: '#' :: digits)
  | out {digits : List Char}
      (isDigits : digits.all Char.isDigit = true ∨ digits.all (· == '%') = true) :
      AtomText .out ('%' :: digits)
  | blank {name marks head : List Char} (plainName : name = [] ∨ Name.IsPlain name)
      (noUnderscore : '_' ∉ name) (underscores : marks ≠ []) (isMarks : ∀ c ∈ marks, c = '_')
      (plainHead : head = [] ∨ Name.IsPlain head) (noUnderscore' : '_' ∉ head) :
      AtomText .blank (name ++ marks ++ head)
  | optional {name : List Char} (plainName : name = [] ∨ Name.IsPlain name)
      (noUnderscore : '_' ∉ name) : AtomText .blank (name ++ ['_', '.'])

/-- The marks of a blank are underscores, but for the point of an optional one. -/
theorem marks_cases (cs : List Char) :
    (Placeholder.marks ('_' :: cs)).1 = ['_', '.'] ∨
      (Placeholder.marks ('_' :: cs)).1 ≠ [] ∧
        ∀ c ∈ (Placeholder.marks ('_' :: cs)).1, c = '_' := by
  unfold Placeholder.marks
  split
  · split
    · exact .inr ⟨by simp, by simp⟩
    · exact .inl rfl
  · exact .inr ⟨by simp, by simp⟩
  · exact .inr ⟨by simp, by simp⟩
  · exact .inr ⟨by simp, by simp⟩
  · rename_i hnot
    exact (hnot cs rfl).elim

theorem atomText_placeholder {name : List Char} {c : Cursor} (hname : name = [] ∨ Name.IsPlain name)
    (hunderscore : '_' ∉ name) (hc : c.rest.head? = some '_') :
    AtomText (Placeholder.read name c).kind (Placeholder.read name c).text := by
  obtain ⟨rest, hrest⟩ := List.head?_eq_some_iff.mp hc
  unfold Placeholder.read
  simp only [hrest]
  split
  · rename_i hoptional
    rw [hoptional]
    exact .optional hname hunderscore
  · rename_i hnot
    -- a blank has underscores, and then a head or none
    rcases marks_cases rest with hoptional | ⟨hne, hmarks⟩
    · exact absurd hoptional hnot
    · exact .blank hname hunderscore hne hmarks (Name.read_eq_nil_or_isPlain _)
        (Name.underscore_notMem_read _)

theorem atomText_symbol {c : Cursor} (hstarts : Name.startsAt c = true) :
    AtomText (symbol c).kind (symbol c).text := by
  have hplain := Name.isPlain_read hstarts
  unfold symbol
  simp only
  split
  · rename_i hunderscore
    exact atomText_placeholder (.inr hplain) (Name.underscore_notMem_read c) hunderscore
  · exact .symbol hplain

theorem atomText_slot (c : Cursor) :
    AtomText (Reference.slot c).kind (Reference.slot c).text := by
  unfold Reference.slot
  split
  · exact .slotSequence List.all_takeWhile
  · exact .slot _

theorem atomText_out (c : Cursor) : AtomText (Reference.out c).kind (Reference.out c).text := by
  refine .out ?_
  unfold Reference.outCharacter
  split
  · exact .inr List.all_takeWhile
  · exact .inl List.all_takeWhile

/-- Every atom is written as its kind says. -/
theorem FoundAs.atomText {place : Cursor} {found : Lexeme} (h : FoundAs place found)
    (hatom : found.kind.isAtom = true) : AtomText found.kind found.text := by
  cases h with
  | stop kind =>
    -- neither the end of the input nor a mark is an atom
    rw [kind] at hatom
    cases hatom
  | string kind =>
    rw [kind]
    exact .string _
  | slot _ eq =>
    rw [eq]
    exact atomText_slot place
  | out _ eq =>
    rw [eq]
    exact atomText_out place
  | placeholder start eq =>
    rw [eq]
    exact atomText_placeholder (.inl rfl) (by simp) start
  | symbol starts eq =>
    rw [eq]
    exact atomText_symbol starts
  | numeral _ read =>
    obtain ⟨literal, rest, hsplit, rfl⟩ := numeral_of_read read
    rw [(Literal.append_of_split? hsplit).1] at hsplit
    exact .number hsplit
  | mark kind =>
    rw [kind] at hatom
    cases hatom

theorem atomText_of_mem_tokenize {text : String} {tokens : List Token} {t : Token}
    (h : tokenize text = .ok tokens) (ht : t ∈ tokens) (hatom : t.kind.isAtom = true) :
    AtomText t.kind t.text.toList := by
  by_cases hkind : t.kind = .filename
  · rw [hkind]
    exact .filename _
  · obtain ⟨place, found, hfound, rfl⟩ := foundAs_of_mem_tokenize h ht hkind
    rw [Lexeme.token, String.toList_ofList]
    exact hfound.atomText hatom

end Symbolic.Scan
