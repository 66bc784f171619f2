import Symbolic.Proofs.Continued.Lexemes
import Symbolic.Proofs.Escapes.Opaque

/-!
# The same text elsewhere

What is read of a text does not depend on where the text stands: the lexemes have the same kinds and
texts, and the faults are the same, wherever they are located.

## Key results

- `lexeme_elsewhere`: the same lexeme
- `tokensFrom_elsewhere`: the same tokens, up to their locations
-/

namespace Symbolic

variable {c d : Cursor}

/-! ## Escapes and names -/

/-- An escape stands for the same character anywhere. -/
theorem Escape.read_elsewhere (h : c.rest = d.rest) : Outcome (· = ·) (read c) (read d) := by
  obtain ⟨offset, cs⟩ := c
  obtain ⟨offset', _⟩ := d
  cases h
  unfold read
  dsimp only
  -- what is read depends on the characters only, branch by branch
  split
  · split
    · split
      · split
        · exact .found rfl
        · exact .fault rfl
      · exact .fault rfl
    · exact .fault rfl
  · split
    · exact .found rfl
    · exact .fault rfl
  · exact .fault rfl

/-- The same character is decoded anywhere. -/
theorem Glyph.at?_elsewhere {g : Glyph} (h : c.rest = d.rest) (hat : at? c = some g) :
    ∃ next, next.rest = g.next.rest ∧ at? d = some { g with next := next } := by
  obtain ⟨offset, cs⟩ := c
  obtain ⟨offset', _⟩ := d
  cases h
  unfold at? at hat ⊢
  dsimp only at hat ⊢
  split at hat
  · cases hat
  · rename_i rest
    -- an escape, which is the same at both places
    have hread := Escape.read_elsewhere (c := ⟨offset, '\\' :: rest⟩)
      (d := ⟨offset', '\\' :: rest⟩) rfl
    generalize Escape.read ⟨offset, '\\' :: rest⟩ = read,
      Escape.read ⟨offset', '\\' :: rest⟩ = read' at hread hat
    cases hread with
    | @found escape _ related =>
      subst related
      cases hat
      exact ⟨escape.next ⟨offset', '\\' :: rest⟩, rfl, rfl⟩
    | fault => cases hat
  · rename_i char rest _
    cases hat
    exact ⟨Cursor.after ⟨offset', char :: rest⟩ [char] rest, rfl, rfl⟩

/-- Whether a character belongs to a name does not depend on what follows. -/
theorem Glyph.belongs_elsewhere {g : Glyph} {next : Cursor} (h : next.rest = g.next.rest)
    (first : Bool) : Glyph.belongs { g with next := next } first = g.belongs first := by
  simp only [belongs, marksContext, h]

/-- Nor does it depend on where the text stands. -/
theorem Glyph.any_elsewhere (h : c.rest = d.rest) (first : Bool) :
    (at? d).any (·.belongs first) = (at? c).any (·.belongs first) := by
  cases hat : at? c with
  | some g =>
    obtain ⟨next, hnext, hat'⟩ := at?_elsewhere h hat
    rw [hat', Option.any_some, Option.any_some, belongs_elsewhere hnext]
  | none =>
    cases hat' : at? d with
    | none => rfl
    | some g =>
      obtain ⟨next, -, hat''⟩ := at?_elsewhere h.symm hat'
      cases hat.symm.trans hat''

/-- A name starts anywhere if it starts somewhere. -/
theorem Name.startsAt_elsewhere (h : c.rest = d.rest) : startsAt d = startsAt c :=
  Glyph.any_elsewhere h true

/-- The same name is read anywhere. -/
theorem Name.readFrom_elsewhere (first : Bool) (h : c.rest = d.rest) :
    (readFrom first d).1 = (readFrom first c).1 ∧
      (readFrom first d).2.rest = (readFrom first c).2.rest := by
  -- where nothing is read of the one, nothing is read of the other
  have hstop : ∀ {first : Bool} {c d : Cursor}, c.rest = d.rest →
      (Glyph.at? c).any (·.belongs first) = false →
      (readFrom first d).1 = [] ∧ (readFrom first d).2.rest = c.rest := by
    intro first c d h hnone
    rw [readFrom_of_not_any ((Glyph.any_elsewhere h first).trans hnone)]
    exact ⟨rfl, h.symm⟩
  fun_induction readFrom first c generalizing d with
  | case1 first c hat => exact hstop h (by rw [hat]; rfl)
  | case2 first c g hat hbelongs name next hread ih =>
    obtain ⟨next', hnext, hat'⟩ := Glyph.at?_elsewhere h hat
    have hsame := ih hnext.symm
    rw [hread] at hsame
    rw [readFrom_of_belongs hat' ((Glyph.belongs_elsewhere hnext first).trans hbelongs)]
    exact ⟨congrArg (g.char :: ·) hsame.1, hsame.2⟩
  | case3 first c g hat hbelongs => exact hstop h (by simpa [hat] using hbelongs)

/-! ## Lexemes -/

/-- The lexemes are the same but for where they are. -/
structure Lexeme.Alike (found found' : Lexeme) : Prop where
  kind : found.kind = found'.kind
  text : found.text = found'.text
  rest : found.next.rest = found'.next.rest

/-- A blank is read the same anywhere. -/
theorem Placeholder.read_elsewhere (name : List Char) (h : c.rest = d.rest) :
    (read name c).Alike (read name d) := by
  by_cases hoptional : (marks c.rest).1 = ['_', '.']
  · rw [read_of_optional hoptional, read_of_optional (by rwa [← h]), h]
    exact ⟨rfl, rfl, rfl⟩
  · obtain ⟨hname, hrest⟩ := Name.readFrom_elsewhere true
      (c := c.after (marks d.rest).1 (marks d.rest).2)
      (d := d.after (marks d.rest).1 (marks d.rest).2) rfl
    rw [read_of_not_optional hoptional, read_of_not_optional (by rwa [← h]), h]
    exact ⟨rfl, congrArg (name ++ (marks d.rest).1 ++ ·) hname.symm, hrest.symm⟩

section Quoted

open Quoted

variable {start start' : Nat}

/-- A piece of a string is read the same anywhere. -/
theorem Quoted.piece_elsewhere (start start' : Nat) (h : c.rest = d.rest) :
    Outcome (fun p q => p.1 = q.1 ∧ p.2.rest = q.2.rest) (piece start c) (piece start' d) := by
  obtain ⟨offset, cs⟩ := c
  obtain ⟨offset', _⟩ := d
  cases h
  have hread := Escape.read_elsewhere (c := ⟨offset, cs⟩) (d := ⟨offset', cs⟩) rfl
  unfold piece
  dsimp only
  split
  · rename_i rest
    -- a backslash: an escape, or a pair of characters
    cases rest with
    | nil => exact .fault rfl
    | cons mark rest =>
      dsimp only
      split
      · generalize Escape.read ⟨offset, '\\' :: mark :: rest⟩ = read,
          Escape.read ⟨offset', '\\' :: mark :: rest⟩ = read' at hread
        cases hread with
        | found related =>
          subst related
          exact .found ⟨rfl, rfl⟩
        | fault same => exact .fault same
      · exact .found ⟨rfl, rfl⟩
  · exact .found ⟨rfl, rfl⟩
  · exact .fault rfl

/-- One piece of quoted text is read elsewhere as well, and the rest after it. -/
theorem Quoted.body_step {text : List Char} {next : Cursor} (h : c.rest = d.rest)
    (hquote : ∀ rest, c.rest ≠ '"' :: rest) (hpiece : piece start c = .ok (text, next)) :
    ∃ next', next.rest = next'.rest ∧
      body start' d = (body start' next').map fun found => (text ++ found.1, found.2) := by
  have hsame := piece_elsewhere start start' h
  rw [hpiece] at hsame
  generalize hpiece' : piece start' d = found at hsame
  cases hsame with
  | @found _ q related =>
    obtain ⟨text', next'⟩ := q
    obtain ⟨rfl, hrest⟩ := related
    exact ⟨next', hrest, Scan.body_of_piece (fun rest hd => hquote rest (h.trans hd)) hpiece'⟩

/-- So is all of a string up to its quote. -/
theorem Quoted.body_elsewhere (start start' : Nat) (h : c.rest = d.rest) :
    Outcome (fun p q => p.1 = q.1 ∧ p.2.rest = q.2.rest) (body start c) (body start' d) := by
  fun_induction body start c generalizing d with
  | case1 c rest hrest =>
    have hd : d.rest = '"' :: rest := h ▸ hrest
    rw [body, hd]
    exact .found ⟨rfl, rfl⟩
  | case2 c e hpiece hquote =>
    have hsame := piece_elsewhere start start' h
    rw [hpiece] at hsame
    generalize hpiece' : piece start' d = found at hsame
    cases hsame with
    | fault same =>
      rw [body_of_piece_error (fun rest hd => hquote rest (h.trans hd)) hpiece']
      exact .fault same
  | case3 c text next hpiece e hbody hquote ih =>
    -- one piece and the rest of the string, which is never closed
    obtain ⟨next', hrest, hd⟩ := body_step h hquote hpiece
    have hsame := ih hrest
    rw [hbody] at hsame
    rw [hd]
    generalize body start' next' = found at hsame
    cases hsame with
    | fault same => exact .fault same
  | case4 c text next hpiece more after hbody hquote ih =>
    -- one piece and the rest of the string up to its quote
    obtain ⟨next', hrest, hd⟩ := body_step h hquote hpiece
    have hsame := ih hrest
    rw [hbody] at hsame
    rw [hd]
    generalize body start' next' = found at hsame
    cases hsame with
    | found related => exact .found ⟨congrArg (text ++ ·) related.1, related.2⟩

end Quoted

/-- So is a slot. -/
theorem Reference.slot_elsewhere (h : c.rest = d.rest) : (slot c).Alike (slot d) := by
  unfold slot
  rw [h]
  split <;> exact ⟨rfl, rfl, rfl⟩

/-- So is a reference to an output. -/
theorem Reference.out_elsewhere (h : c.rest = d.rest) : (out c).Alike (out d) := by
  unfold out
  rw [h]
  exact ⟨rfl, rfl, rfl⟩

/-- So is a number. -/
theorem Numeral.read_elsewhere (h : c.rest = d.rest) :
    Outcome Lexeme.Alike (read c) (read d) := by
  unfold read
  rw [h]
  split
  · exact .fault rfl
  · dsimp only
    split
    · exact .fault rfl
    · split
      · exact .found ⟨rfl, rfl, rfl⟩
      · exact .fault rfl
    · exact .found ⟨rfl, rfl, rfl⟩

/-- So is a mark. -/
theorem Mark.read_elsewhere (h : c.rest = d.rest) : Outcome Lexeme.Alike (read c) (read d) := by
  unfold read
  rw [h]
  split
  · exact .found ⟨rfl, rfl, rfl⟩
  · split
    · exact .found ⟨rfl, rfl, rfl⟩
    · exact .fault rfl

namespace Scan

/-- So is a symbol, with a blank behind it or not. -/
theorem symbol_elsewhere (h : c.rest = d.rest) : (symbol c).Alike (symbol d) := by
  obtain ⟨hname, hrest⟩ := Name.readFrom_elsewhere true h
  by_cases hunderscore : (Name.read c).2.rest.head? = some '_'
  · rw [symbol_of_underscore hunderscore, symbol_of_underscore (by rwa [Name.read, hrest]),
      show (Name.read d).1 = (Name.read c).1 from hname]
    exact Placeholder.read_elsewhere _ hrest.symm
  · rw [symbol_of_not_underscore hunderscore,
      symbol_of_not_underscore (by rwa [Name.read, hrest])]
    exact ⟨rfl, hname.symm, hrest.symm⟩

/-- So is what an escape starts. -/
theorem escaped_elsewhere (h : c.rest = d.rest) :
    Outcome Lexeme.Alike (escaped c) (escaped d) := by
  have hread := Escape.read_elsewhere h
  have hstarts := Name.startsAt_elsewhere h
  unfold escaped
  generalize Escape.read c = read, Escape.read d = read' at hread
  cases hread with
  | fault same => exact .fault same
  | @found escape _ related =>
    -- the same character starts a name, an operator or nothing
    subst related
    dsimp only
    rw [hstarts]
    split
    · exact .found (symbol_elsewhere h)
    · split
      · exact .found ⟨rfl, rfl, rfl⟩
      · exact .fault rfl

/-- So is a string. -/
theorem quoted_elsewhere (kind : TokenKind) (h : c.rest = d.rest) :
    Outcome Lexeme.Alike (quoted kind c) (quoted kind d) := by
  have hread := Quoted.body_elsewhere (c := c.after ['"'] c.rest.tail)
    (d := d.after ['"'] d.rest.tail) c.offset d.offset (congrArg List.tail h)
  exact hread.map fun _ _ related => ⟨rfl, related.1, related.2⟩

/-- So is any other lexeme. -/
theorem plain_elsewhere (h : c.rest = d.rest) : Outcome Lexeme.Alike (plain c) (plain d) := by
  unfold plain
  rw [← h]
  split
  · exact .found ⟨rfl, rfl, h⟩
  · exact quoted_elsewhere .string h
  · exact .found (Reference.slot_elsewhere h)
  · exact .found (Reference.out_elsewhere h)
  · exact .found (Placeholder.read_elsewhere [] h)
  · exact escaped_elsewhere h
  · rw [Name.startsAt_elsewhere h]
    split
    · exact Numeral.read_elsewhere h
    · split
      · exact .found (symbol_elsewhere h)
      · exact Mark.read_elsewhere h

/-- So is every lexeme, a file name where one is expected included. -/
theorem lexeme_elsewhere (expectsFilename : Bool) (h : c.rest = d.rest) :
    Outcome Lexeme.Alike (lexeme expectsFilename c) (lexeme expectsFilename d) := by
  cases expectsFilename with
  | false => exact plain_elsewhere h
  | true =>
    show Outcome Lexeme.Alike (filename c) (filename d)
    unfold filename
    rw [← h]
    split
    · exact quoted_elsewhere .filename h
    · split
      · exact .found ⟨rfl, rfl, rfl⟩
      · exact plain_elsewhere h

/-! ## Whole texts -/

/-- The same blanks and comments are skipped anywhere. -/
theorem skipFrom_elsewhere (depth start start' offset offset' : Nat) (cs : List Char) :
    Outcome (fun place place' => place.rest = place'.rest)
      (Trivia.skipFrom depth start offset cs) (Trivia.skipFrom depth start' offset' cs) := by
  fun_induction Trivia.skipFrom depth start offset cs generalizing start' offset' with
  | case1 depth start offset rest ih =>
    -- a comment opens, closes, goes on or is never closed, and outside of one a character is no
    -- blank
    rw [Trivia.skipFrom]
    exact ih _ _
  | case2 start offset rest =>
    rw [Trivia.skipFrom]
    exact .found rfl
  | case3 start offset rest depth ih =>
    rw [Trivia.skipFrom]
    exact ih _ _
  | case4 depth start offset first rest hopen hclose hstop =>
    rw [Trivia.skipFrom, if_pos hstop]
    · exact .found rfl
    · exact hopen
    · exact hclose
  | case5 depth start offset first rest hopen hclose hstop ih =>
    rw [Trivia.skipFrom, if_neg hstop]
    · exact ih _ _
    · exact hopen
    · exact hclose
  | case6 start offset =>
    rw [Trivia.skipFrom, if_pos rfl]
    exact .found rfl
  | case7 depth start offset hdepth =>
    rw [Trivia.skipFrom, if_neg hdepth]
    exact .fault rfl

/-- The tokens are related one by one, and the faults that end them are the same. -/
structure Alike (R : Token → Token → Prop) (scan scan' : List Token × Option ScanError) :
    Prop where
  tokens : List.Forall₂ R scan.1 scan'.1
  fault : scan.2.map (·.fault) = scan'.2.map (·.fault)

variable {R : Token → Token → Prop} {expectsFilename : Bool}

/-- Two scans that find the same fault first are alike. -/
theorem Alike.of_faults {e e' : ScanError} (h : e.fault = e'.fault) :
    Alike R ([], some e) ([], some e') :=
  ⟨.nil, congrArg some h⟩

/-- Scans are alike if they are from the first lexeme on. -/
theorem Alike.of_lexeme {place place' : Cursor} (hskip : Trivia.skip c = .ok place)
    (hskip' : Trivia.skip d = .ok place') (hend : place.rest = [] ↔ place'.rest = [])
    (hlexeme : Outcome (fun found found' => found.kind = found'.kind ∧
        R (found.token place) (found'.token place') ∧
        (place.rest ≠ [] → Alike R (tokensFrom found.kind.takesFilename found.next)
          (tokensFrom found.kind.takesFilename found'.next)))
      (lexeme expectsFilename place) (lexeme expectsFilename place')) :
    Alike R (tokensFrom expectsFilename c) (tokensFrom expectsFilename d) := by
  rw [tokensFrom_of_skip hskip, tokensFrom_of_skip hskip']
  generalize lexeme expectsFilename place = read,
    lexeme expectsFilename place' = read' at hlexeme
  cases hlexeme with
  | fault same => exact .of_faults same
  | found related =>
    obtain ⟨hkind, htoken, hrest⟩ := related
    -- the end of the input is the last token, any other has more behind it
    by_cases hnil : place.rest = []
    · simp only [if_pos hnil, if_pos (hend.mp hnil)]
      exact ⟨.cons htoken .nil, rfl⟩
    · simp only [if_neg hnil, if_neg (mt hend.mpr hnil), ← hkind]
      exact ⟨.cons htoken (hrest hnil).tokens, (hrest hnil).fault⟩

/-- The tokens of a text do not depend on where it stands, but for their locations. -/
theorem tokensFrom_elsewhere
    (hR : ∀ {t t' : Token}, t.kind = t'.kind → t.text = t'.text → R t t')
    (expectsFilename : Bool) (h : c.rest = d.rest) :
    Alike R (tokensFrom expectsFilename c) (tokensFrom expectsFilename d) := by
  -- induction on what is left of the text: one lexeme, and the others behind it
  induction hn : c.rest.length using Nat.strongRecOn generalizing expectsFilename c d with
  | ind n ih =>
    subst hn
    have hskip : Outcome (fun place place' => place.rest = place'.rest) (Trivia.skip c)
        (Trivia.skip d) := by
      rw [Trivia.skip, Trivia.skip, h]
      exact skipFrom_elsewhere 0 _ _ _ _ _
    generalize hc : Trivia.skip c = skip, hd : Trivia.skip d = skip' at hskip
    cases hskip with
    | fault same =>
      rw [tokensFrom_of_skip_error hc, tokensFrom_of_skip_error hd]
      exact .of_faults same
    | @found place place' related =>
      refine .of_lexeme hc hd (by rw [related]) ?_
      have hlexeme := lexeme_elsewhere expectsFilename related
      generalize hread : lexeme expectsFilename place = read,
        lexeme expectsFilename place' = read' at hlexeme
      cases hlexeme with
      | fault same => exact .fault same
      | found alike =>
        refine .found ⟨alike.kind, hR alike.kind (congrArg String.ofList alike.text), ?_⟩
        intro hne
        have hprecedes := (Trivia.reaches_of_skip hc).trans_precedes
          (precedes_of_lexeme hne hread)
        exact ih _ hprecedes.length_lt _ alike.rest rfl

end Scan

end Symbolic
