import Symbolic.Proofs.FullForm.Magnitude
import Symbolic.Proofs.Scanning.Tokens

/-!
# Parts of lexemes elsewhere

Escapes and quoted text say themselves where they end. Names and the blanks of patterns end before
what cannot go on with them. So what one of these takes of a text is read as the same wherever else
it stands.

## Key results

- `Escape.Spells`, `Name.Spells`: what escapes and names are made of
- `Name.exists_spells_readFrom`, `Name.Spells.readFrom_append`: names are read as they are spelled
- `Placeholder.exists_read_append`: blanks of patterns
- `Quoted.exists_body_append`: quoted text
-/

namespace Symbolic

open Scan (AtBoundary atBoundary_nil boundaries)

/-- What is passed over starts as the text does. -/
theorem Cursor.Passes.exists_cons {c d : Cursor} {source rest : List Char} {first : Char}
    (h : c.Passes source d) (hne : source ≠ []) (hrest : c.rest = first :: rest) :
    ∃ after, source = first :: after ∧ rest = after ++ d.rest := by
  cases source with
  | nil => exact absurd rfl hne
  | cons e after =>
    obtain ⟨rfl, hafter⟩ := List.cons.inj (hrest.symm.trans h.1)
    exact ⟨after, rfl, hafter⟩

/-! ## Escapes -/

/-- The source is an escape for the character: the name of that in brackets, or its code point in
    four hexadecimal digits. -/
inductive Escape.Spells : List Char → Char → Prop where
  | named {name : List Char} {char : Char} (isName : isName name = true)
      (known : Character.ofName? (.ofList name) = some char) :
      Spells ('\\' :: '[' :: (name ++ [']'])) char
  | hexadecimal {digits : List Char} {char : Char} (code : ofHexadecimal? digits = some char) :
      Spells ('\\' :: ':' :: digits) char

/-- What is read as an escape is one. -/
theorem Escape.spells_of_read {c : Cursor} {e : Escape} (h : read c = .ok e) :
    Spells e.source e.char := by
  unfold read at h
  split at h
  · split at h
    · dsimp only at h
      split at h
      · rename_i hname
        split at h
        · rename_i hchar
          cases h
          -- a name in brackets
          exact .named hname hchar
        · cases h
      · cases h
    · cases h
  · split at h
    · rename_i hchar
      cases h
      -- four digits
      exact .hexadecimal hchar
    · cases h
  · cases h

/-- A name does not hold the bracket that ends it. -/
theorem Escape.splitOnce?_of_isName {name : List Char} (h : isName name = true)
    (tail : List Char) : Text.splitOnce? [']'] (name ++ ']' :: tail) = some (name, tail) := by
  have hbracket : ']' ∉ name := by
    intro hmem
    have hall := (Bool.and_eq_true_iff.mp h).2
    exact absurd (List.all_eq_true.mp hall ']' hmem) (by decide)
  rw [Text.splitOnce?_append hbracket]
  simp [Text.splitOnce?, Text.strip?]

/-- An escape is read whatever follows it. -/
theorem Escape.Spells.read_append {source : List Char} {char : Char} (h : Spells source char)
    (offset : Nat) (tail : List Char) :
    read ⟨offset, source ++ tail⟩ = .ok ⟨char, source, tail⟩ := by
  cases h with
  | @named name _ hname hchar =>
    have hsplit := splitOnce?_of_isName hname tail
    simp [read, hsplit, hname, hchar]
  | @hexadecimal digits _ hchar =>
    -- the digits are counted, so what follows does not matter
    have hlength : digits.length = 4 := by
      unfold ofHexadecimal? at hchar
      split at hchar
      · assumption
      · cases hchar
    have htake : (digits ++ tail).take 4 = digits := List.take_left' hlength
    have hdrop : (digits ++ tail).drop 4 = tail := List.drop_left' hlength
    simp only [read, List.cons_append, htake, hdrop, hchar]

/-- An escape is read in the same way before any text. -/
theorem Escape.read_append {c : Cursor} {e : Escape} (h : read c = .ok e) (offset : Nat)
    (tail : List Char) : read ⟨offset, e.source ++ tail⟩ = .ok { e with rest := tail } :=
  (spells_of_read h).read_append offset tail

/-- An escape is passed over. -/
theorem Escape.passes_next {c : Cursor} {e : Escape} (h : read c = .ok e) :
    c.Passes e.source (e.next c) :=
  Cursor.passes_after (source_append_rest_of_read h).1

/-! ## Names -/

/-- A character at a place is written plainly or by an escape. -/
theorem Glyph.passes_of_at? {c : Cursor} {g : Glyph} (h : at? c = some g) :
    (g.escaped = false ∧ c.Passes [g.char] g.next) ∨
      g.escaped = true ∧ ∃ escape, Escape.Spells escape g.char ∧ c.Passes escape g.next := by
  unfold at? at h
  split at h
  · cases h
  · split at h
    · rename_i escape hread
      cases h
      -- an escape, spelled as it stands in the source
      exact .inr ⟨rfl, escape.source, Escape.spells_of_read hread, Escape.passes_next hread⟩
    · cases h
  · rename_i hrest
    cases h
    exact .inl ⟨rfl, Cursor.passes_after (by simpa using hrest)⟩

/-- An escape is decoded to its character. -/
theorem Glyph.at?_of_spells {escape : List Char} {char : Char} (h : Escape.Spells escape char)
    (offset : Nat) (tail : List Char) :
    at? ⟨offset, escape ++ tail⟩ =
      some ⟨char, true, ⟨offset + Text.byteLength escape, tail⟩⟩ := by
  have hread := h.read_append offset tail
  -- every escape starts with a backslash
  obtain ⟨after, rfl⟩ : ∃ after, escape = '\\' :: after := by
    cases h <;> exact ⟨_, rfl⟩
  simp only [at?, List.cons_append] at hread ⊢
  rw [hread]
  rfl

/-- A name starts at an escape if it can start with the character of that. -/
theorem Name.startsAt_of_escape {c : Cursor} {escape : Escape} (h : Escape.read c = .ok escape) :
    startsAt c = Character.startsName escape.char := by
  have hat := Glyph.at?_of_spells (Escape.spells_of_read h) c.offset escape.rest
  rw [← (Escape.source_append_rest_of_read h).1] at hat
  rw [startsAt, hat]
  rfl

namespace Name

/-- Whether a name can start with the character, or go on with it. -/
def Admits (first : Bool) (char : Char) : Prop :=
  (if first then Character.startsName char else Character.continuesName char) = true

/-- The source spells the name, or what a name goes on with: every character is written plainly or
    by an escape, and a context mark plainly before another plain character. -/
inductive Spells : Bool → List Char → List Char → Prop where
  | nil {first : Bool} : Spells first [] []
  | plain {first : Bool} {char : Char} {source name : List Char} (admits : Admits first char)
      (tail : Spells false source name) : Spells first (char :: source) (char :: name)
  | escaped {first : Bool} {char : Char} {escape source name : List Char}
      (spells : Escape.Spells escape char) (admits : Admits first char)
      (tail : Spells false source name) : Spells first (escape ++ source) (char :: name)
  | context {first : Bool} {char : Char} {source name : List Char}
      (starts : Character.startsName char = true) (tail : Spells false (char :: source) name) :
      Spells first ('\u0060' :: char :: source) ('\u0060' :: name)

variable {first : Bool} {source name tail : List Char}

/-- A character that a name admits belongs to it. -/
theorem Admits.belongs {char : Char} (h : Admits first char) (escaped : Bool) (next : Cursor) :
    (Glyph.mk char escaped next).belongs first = true := by
  rw [Glyph.belongs, Bool.or_eq_true]
  exact .inr h

/-- A character that a name admits goes on with one. -/
theorem Admits.continuesName {char : Char} (h : Admits first char) :
    Character.continuesName char = true := by
  cases first with
  | true => exact Character.continuesName_of_startsName h
  | false => exact h

/-- Nothing spells an empty name. -/
theorem Spells.eq_nil (h : Spells first [] name) : name = [] := by
  generalize hsource : ([] : List Char) = source at h
  cases h with
  | nil => rfl
  | plain => cases hsource
  | escaped spells => cases spells <;> cases hsource
  | context => cases hsource

/-- A name holds nothing but context marks and characters that names go on with. -/
theorem Spells.notMem {d : Char} (h : Spells first source name) (hmark : d ≠ '\u0060')
    (hclass : Character.continuesName d = false) : d ∉ name := by
  have hne : ∀ {first : Bool} {char : Char}, Admits first char → d ≠ char := by
    rintro first char admits rfl
    cases admits.continuesName.symm.trans hclass
  induction h with
  | nil => simp
  | plain admits _ ih => simp [hne admits, ih]
  | escaped _ admits _ ih => simp [hne admits, ih]
  | context _ _ ih => simp [hmark, ih]

/-- A name ends before an underscore. -/
theorem endsName_underscore (rest : List Char) : EndsName ('_' :: rest) := by
  rintro _ ⟨⟩
  exact ⟨by decide, by decide, by decide +kernel, Character.continuesName_underscore⟩

/-- What is read as a name is spelled there. -/
theorem exists_spells_readFrom (first : Bool) (c : Cursor) :
    ∃ source, c.Passes source (readFrom first c).2 ∧ Spells first source (readFrom first c).1 := by
  fun_induction readFrom first c with
  | case1 => exact ⟨[], ⟨rfl, rfl⟩, .nil⟩
  | case2 first c g hat hbelongs name next hread ih =>
    obtain ⟨source, hpasses, htail⟩ := ih
    rw [hread] at hpasses htail
    unfold Glyph.belongs at hbelongs
    rw [Bool.or_eq_true] at hbelongs
    rcases Glyph.passes_of_at? hat with
      ⟨-, hglyph⟩ | ⟨hescaped, escape, hescape, hglyph⟩
    · refine ⟨g.char :: source, hglyph.trans hpasses, ?_⟩
      rcases hbelongs with hmark | hclass
      · -- the name goes on with the character after the mark
        have hhead := head?_readFrom_of_marksContext hmark
        rw [hread] at hhead
        simp only [Glyph.marksContext, Bool.and_eq_true, beq_iff_eq] at hmark
        obtain ⟨⟨-, hchar⟩, hnext⟩ := hmark
        obtain ⟨d, rest, hrest⟩ : ∃ d rest, g.next.rest = d :: rest := by
          cases hrest : g.next.rest with
          | nil => simp [hrest] at hnext
          | cons d rest => exact ⟨d, rest, rfl⟩
        have hne : source ≠ [] := by
          rintro rfl
          rw [htail.eq_nil] at hhead
          cases hhead
        obtain ⟨after, rfl, -⟩ := hpasses.exists_cons hne hrest
        rw [hchar]
        exact .context (by simpa [hrest] using hnext) htail
      · exact .plain hclass htail
    · refine ⟨escape ++ source, hglyph.trans hpasses, ?_⟩
      rcases hbelongs with hmark | hclass
      · -- an escape marks no context
        simp [Glyph.marksContext, hescaped] at hmark
      · exact .escaped hescape hclass htail
  | case3 => exact ⟨[], ⟨rfl, rfl⟩, .nil⟩

/-- A name is read as it is spelled before whatever does not go on with it. -/
theorem Spells.readFrom_append (h : Spells first source name) (htail : EndsName tail)
    (offset : Nat) :
    readFrom first ⟨offset, source ++ tail⟩ =
      (name, ⟨offset + Text.byteLength source, tail⟩) := by
  -- induction on how the name is spelled, one character after the other
  induction h generalizing offset with
  | nil => exact readFrom_of_endsName htail _ offset
  | @plain first char source name admits _ ih =>
    have hescape : char ≠ '\\' := by
      rintro rfl
      cases admits.continuesName.symm.trans Character.continuesName_backslash
    rw [List.cons_append, readFrom_of_belongs (Glyph.at?_cons hescape offset _)
      (admits.belongs _ _), ih, Text.byteLength_cons, Nat.add_assoc]
  | @escaped first char escape source name spells admits _ ih =>
    rw [List.append_assoc, readFrom_of_belongs (Glyph.at?_of_spells spells offset _)
      (admits.belongs _ _), ih, Text.byteLength_append, Nat.add_assoc]
  | @context first char source name starts _ ih =>
    have hbelongs : (Glyph.mk '\u0060' false ⟨offset + '\u0060'.utf8Size,
        char :: source ++ tail⟩).belongs first = true := by
      simp [Glyph.belongs, Glyph.marksContext, starts]
    rw [List.cons_append, readFrom_of_belongs (Glyph.at?_cons (by decide) offset _) hbelongs, ih,
      Text.byteLength_cons '\u0060' (char :: source), Nat.add_assoc]

/-- A name starts where it is spelled. -/
theorem Spells.startsAt_append (h : Spells true source name) (hne : source ≠ [])
    (htail : EndsName tail) (offset : Nat) : startsAt ⟨offset, source ++ tail⟩ = true := by
  by_contra hstarts
  -- nothing would be read there
  have hread := h.readFrom_append htail offset
  rw [readFrom_of_not_any (Bool.eq_false_iff.mpr hstarts)] at hread
  exact hne (List.append_left_eq_self.mp (Cursor.mk.inj (Prod.mk.inj hread).2).2)

/-- What a name takes is read as that name before whatever does not go on with it. -/
theorem exists_readFrom_append (first : Bool) (c : Cursor) :
    ∃ source, c.Passes source (readFrom first c).2 ∧ ∀ offset tail, EndsName tail →
      readFrom first ⟨offset, source ++ tail⟩ =
        ((readFrom first c).1, ⟨offset + Text.byteLength source, tail⟩) := by
  obtain ⟨source, hpasses, hspells⟩ := exists_spells_readFrom first c
  exact ⟨source, hpasses, fun offset tail htail => hspells.readFrom_append htail offset⟩

/-- What starts a name still starts it where the text after the name is another one. -/
theorem exists_read_append {c : Cursor} (h : startsAt c = true) :
    ∃ source, source ≠ [] ∧ c.Passes source (read c).2 ∧ ∀ offset tail, EndsName tail →
      startsAt ⟨offset, source ++ tail⟩ = true ∧
      read ⟨offset, source ++ tail⟩ = ((read c).1, ⟨offset + Text.byteLength source, tail⟩) := by
  obtain ⟨source, hpasses, hspells⟩ := exists_spells_readFrom true c
  have hne : source ≠ [] := by
    rintro rfl
    have hlt := (precedes_read h).length_lt
    rw [hpasses.1, List.nil_append] at hlt
    exact Nat.lt_irrefl _ hlt
  exact ⟨source, hne, hpasses, fun offset tail htail =>
    ⟨hspells.startsAt_append hne htail offset, hspells.readFrom_append htail offset⟩⟩

/-- What a name is read from starts with a character that can start one, or with an escape. -/
theorem notMem_otherStarts_of_read {c : Char} (hescape : c ≠ '\\') {offset offset' : Nat}
    {source tail : List Char} (h : (read ⟨offset, c :: source ++ tail⟩).2 = ⟨offset', tail⟩) :
    c ∉ Scan.otherStarts := by
  intro hmem
  have hnone : (Glyph.at? ⟨offset, c :: (source ++ tail)⟩).any (·.belongs true) = false := by
    rw [Glyph.at?_cons hescape, Option.any_some]
    exact Bool.eq_false_iff.mpr fun hbelongs => Scan.notMem_otherStarts_of_belongs hbelongs hmem
  rw [List.cons_append, read, readFrom_of_not_any hnone] at h
  have hlength := congrArg List.length (Cursor.mk.inj h).2
  simp only [List.length_cons, List.length_append] at hlength
  omega

end Name

/-! ## Blanks of patterns -/

namespace Placeholder

/-- A text before which underscores, with a point or without, are just those that stand there. -/
def EndsMarks (rest : List Char) : Prop :=
  ∀ c ∈ rest.head?, c ≠ '_' ∧ c ≠ '.' ∧ c.isDigit = false

/-- Where underscores end, neither another one nor a point comes next. -/
theorem EndsMarks.ne_cons {rest : List Char} (h : EndsMarks rest) (after : List Char) :
    rest ≠ '_' :: after ∧ rest ≠ '.' :: after := by
  refine ⟨?_, ?_⟩ <;> rintro rfl
  · exact (h '_' rfl).1 rfl
  · exact (h '.' rfl).2.1 rfl

/-- The marks that a blank can have. -/
def allMarks : List (List Char) :=
  [['_', '.'], ['_', '_', '_'], ['_', '_'], ['_']]

/-- Underscores are taken off in one of few ways. -/
theorem marks_mem_allMarks (cs : List Char) : (marks ('_' :: cs)).1 ∈ allMarks := by
  unfold marks allMarks
  split
  · split <;> simp
  · simp
  · simp
  · simp
  · rename_i hnot
    exact (hnot cs rfl).elim

/-- The marks of a blank are taken alone where neither underscores nor points follow them. -/
theorem marks_append {mark rest : List Char} (hmark : mark ∈ allMarks) (h : EndsMarks rest) :
    marks (mark ++ rest) = (mark, rest) := by
  -- what follows does not make a number of a point
  have hclaims : claimsPoint rest = false := by
    cases rest with
    | nil => rfl
    | cons c after =>
      obtain ⟨-, hpoint, hdigit⟩ := h c rfl
      simp [claimsPoint, hpoint, hdigit]
  simp only [allMarks, List.mem_cons, List.not_mem_nil, or_false] at hmark
  rcases hmark with rfl | rfl | rfl | rfl
  · simp [marks, hclaims]
  · rfl
  · rw [List.cons_append, List.cons_append, List.nil_append, marks]
    exact fun after heq => (h.ne_cons after).1 heq
  · rw [List.cons_append, List.nil_append, marks]
    · exact fun after heq => (h.ne_cons after).2 heq
    · exact fun after heq => (h.ne_cons _).1 heq
    · exact fun after heq => (h.ne_cons after).1 heq

/-- Underscores end at a boundary. -/
theorem endsMarks_of_atBoundary {tail : List Char} (h : AtBoundary tail) : EndsMarks tail := by
  intro c hc
  exact ⟨h.ne hc (by decide), h.ne hc (by decide), Scan.isDigit_boundary c (h c hc)⟩

/-- Neither the source of a name nor a boundary goes on with underscores or points. -/
theorem endsMarks_append {source tail : List Char} (h : AtBoundary tail) {offset offset' : Nat}
    (hread : (Name.read ⟨offset, source ++ tail⟩).2 = ⟨offset', tail⟩) :
    EndsMarks (source ++ tail) := by
  cases source with
  | nil => exact endsMarks_of_atBoundary h
  | cons c source =>
    rintro d ⟨⟩
    by_cases hescape : c = '\\'
    · subst hescape
      decide
    · -- what the name starts with is no underscore, no point and no digit
      have hother := Name.notMem_otherStarts_of_read hescape hread
      have hne : ∀ d ∈ Scan.otherStarts, c ≠ d := by
        rintro d hd rfl
        exact hother hd
      exact ⟨hne _ (by decide), hne _ (by decide),
        Bool.eq_false_iff.mpr fun hdigit => hother (Scan.mem_otherStarts_of_isDigit hdigit)⟩

/-- What a blank takes from its underscores on is read as that blank before any boundary. -/
theorem exists_read_append (name : List Char) {c : Cursor} (h : c.rest.head? = some '_') :
    ∃ source, source.head? = some '_' ∧ c.Passes source (read name c).next ∧
      ∀ offset tail, AtBoundary tail → read name ⟨offset, source ++ tail⟩ =
        { read name c with next := ⟨offset + Text.byteLength source, tail⟩ } := by
  obtain ⟨cs, hcs⟩ := List.head?_eq_some_iff.mp h
  have hmem := marks_mem_allMarks cs
  have happend := append_marks ('_' :: cs)
  rw [← hcs] at hmem happend
  have hhead : (marks c.rest).1.head? = some '_' := by
    revert hmem
    generalize (marks c.rest).1 = mark
    exact (by decide : ∀ mark ∈ allMarks, mark.head? = some '_') mark
  have hpasses : c.Passes (marks c.rest).1 (c.after (marks c.rest).1 (marks c.rest).2) :=
    Cursor.passes_after happend.symm
  -- an optional blank ends here, any other goes on with a name
  by_cases hoptional : (marks c.rest).1 = ['_', '.']
  · refine ⟨['_', '.'], rfl, ?_, fun offset tail htail => ?_⟩
    · simpa [read, hoptional] using hpasses
    · have hmarks := marks_append (hoptional ▸ hmem) (endsMarks_of_atBoundary htail)
      simp only [read, hoptional, hmarks]
      rfl
  · obtain ⟨source, hname, hread⟩ := Name.exists_readFrom_append true
      (c.after (marks c.rest).1 (marks c.rest).2)
    refine ⟨(marks c.rest).1 ++ source, ?_, ?_, fun offset tail htail => ?_⟩
    · rw [List.head?_append, hhead, Option.some_or]
    · simp only [read, hoptional, if_false]
      exact hpasses.trans hname
    · have hread' := hread (offset + Text.byteLength (marks c.rest).1) tail
        (Name.endsName_of_atBoundary htail)
      -- the name of the head, or the boundary behind it, ends the underscores
      have hends : EndsMarks (source ++ tail) :=
        endsMarks_append htail (congrArg Prod.snd hread')
      have hmarks := marks_append hmem hends
      simp only [read, List.append_assoc, hmarks, hoptional, if_false, Cursor.after, Name.read,
        hread', Text.byteLength_append, Nat.add_assoc]

end Placeholder

/-! ## Quoted text -/

namespace Quoted

/-- A piece of quoted text is read in the same way before any text. -/
theorem exists_piece_append {start : Nat} {c next : Cursor} {text : List Char}
    (h : piece start c = .ok (text, next)) :
    ∃ source, source ≠ [] ∧ c.Passes source next ∧ ∀ start' offset tail,
      piece start' ⟨offset, source ++ tail⟩ =
        .ok (text, ⟨offset + Text.byteLength source, tail⟩) := by
  unfold piece at h
  split at h
  · rename_i rest hrest
    split at h
    · cases h
    · rename_i mark rest
      split at h
      · rename_i hmark
        split at h
        · rename_i escape hread
          cases h
          refine ⟨escape.source, (Escape.source_append_rest_of_read hread).2,
            Escape.passes_next hread, fun start' offset tail => ?_⟩
          have hread' := Escape.read_append hread offset tail
          -- the source of the escape starts with both of these characters
          have hlength := Escape.two_le_length_source hread
          obtain ⟨after, hafter, hrest'⟩ := (Escape.passes_next hread).exists_cons
            (Escape.source_append_rest_of_read hread).2 hrest
          cases after with
          | nil => simp [hafter] at hlength
          | cons d after =>
            obtain ⟨rfl, -⟩ := List.cons.inj hrest'
            rw [hafter] at hread' ⊢
            simp only [piece, List.cons_append, hmark, if_true] at hread' ⊢
            simp [hread', Escape.next, Cursor.after]
        · cases h
      · rename_i hmark
        cases h
        refine ⟨['\\', mark], by simp, Cursor.passes_after (by simp [hrest]), ?_⟩
        intro start' offset tail
        -- any other character behind the backslash is a piece with it
        simp [piece, hmark, Cursor.after]
  · rename_i char rest hchar hrest
    cases h
    refine ⟨[char], by simp, Cursor.passes_after (by simpa using hrest), ?_⟩
    exact fun start' offset tail => Scan.piece_cons hchar start' offset tail
  · cases h

/-- Quoted text is read up to its closing quote, before any text. -/
theorem exists_body_append {start : Nat} {c next : Cursor} {text : List Char}
    (h : body start c = .ok (text, next)) :
    ∃ source, c.Passes source next ∧ ∀ start' offset tail,
      body start' ⟨offset, source ++ tail⟩ =
        .ok (text, ⟨offset + Text.byteLength source, tail⟩) := by
  fun_induction body start c generalizing text next with
  | case1 c rest hrest =>
    cases h
    refine ⟨['"'], Cursor.passes_after (by simp [hrest]), fun start' offset tail => ?_⟩
    rw [body]
    rfl
  | case2 => cases h
  | case3 => cases h
  | case4 c text next hpiece more after hbody hquote ih =>
    cases h
    obtain ⟨source, hne, hpasses, hread⟩ := exists_piece_append hpiece
    obtain ⟨sources, hmore, hbody'⟩ := ih hbody
    refine ⟨source ++ sources, hpasses.trans hmore, fun start' offset tail => ?_⟩
    have hpiece' := hread start' offset (sources ++ tail)
    -- a piece does not start with the quote that would end the body
    have hquote' : ∀ rest, source ++ (sources ++ tail) ≠ '"' :: rest := by
      intro rest heq
      obtain ⟨d, source, rfl⟩ := List.exists_cons_of_ne_nil hne
      rw [(List.cons.inj heq).1] at hpasses
      exact hquote _ hpasses.1
    rw [List.append_assoc, Scan.body_of_piece hquote' hpiece', hbody', Text.byteLength_append,
      Nat.add_assoc]
    rfl

end Quoted

end Symbolic
