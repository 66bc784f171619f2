import Symbolic.Proofs.Continued.Final
import Symbolic.Proofs.Escapes.Lexemes

/-!
# Escapes are another spelling

A character outside ASCII that names or operates may be written by an escape, as far as it stands
neither in a string nor in a comment nor where a file name is expected: the same tokens are found,
but for their locations and the text of the operator that the character is, or the same fault. The
one exception is a character right behind a backquote. There the text with the escape may be at
fault, for a backquote marks a context only before a plain character.

## Key results

- `Exposed`: the character stands outside of strings, comments and file names
- `tokensFrom_respelled`: the tokens from a place on
- `tokenize_respelled`: whole texts
-/

namespace Symbolic

open Character

/-- The same token in another place, or the operator in its other spelling. -/
structure Token.Respelled (char : Char) (escape : List Char) (t t' : Token) : Prop where
  kind : t.kind = t'.kind
  text : t.text = t'.text ∨ operator? char = some t.kind ∧ t.text = .ofList [char] ∧
    t'.text = .ofList escape

variable {char : Char} {escape post : List Char}

/-- Respelled lexemes make respelled tokens. -/
theorem Lexeme.Respelled.token {found found' : Lexeme}
    (h : found.Respelled char escape post found') (place place' : Cursor) :
    (found.token place).Respelled char escape (found'.token place') := by
  refine ⟨h.kind, h.text.imp (congrArg String.ofList) ?_⟩
  exact fun ⟨hoperator, htext, htext'⟩ =>
    ⟨hoperator, congrArg String.ofList htext, congrArg String.ofList htext'⟩

/-! ## Places before and behind the character -/

/-- What leads to a place before some text starts before it. -/
theorem Cursor.Reaches.exists_followedBy {c d : Cursor} {more : List Char}
    (h : c.Reaches (d.followedBy more)) : ∃ place : Cursor, c = place.followedBy more := by
  obtain ⟨taken, hrest, -⟩ := h
  refine ⟨⟨c.offset, taken ++ d.rest⟩, ?_⟩
  rw [followedBy, List.append_assoc]
  exact congrArg (Cursor.mk c.offset) hrest

/-- Something is left of a text that goes on. -/
theorem Cursor.followedBy_ne_nil (c : Cursor) {more : List Char} (h : more ≠ []) :
    (c.followedBy more).rest ≠ [] :=
  List.append_ne_nil_of_right_ne_nil _ h

/-- An escape is something. -/
theorem Respells.escape_append_ne_nil (h : Respells char escape) (post : List Char) :
    escape ++ post ≠ [] := by
  obtain ⟨inner, rfl, -⟩ := h.spells.exists_cons
  exact List.cons_ne_nil _ _

namespace Aligned

variable {c d : Cursor}

/-- Behind the character both texts have the same left. -/
theorem rest_eq (h : Aligned char escape post c d) (hpassed : c.rest.length ≤ post.length) :
    c.rest = d.rest := by
  cases h with
  | before place =>
    simp only [Cursor.followedBy, List.length_append, List.length_cons] at hpassed
    omega
  | behind rest => exact rest

/-- Before the character they have the two spellings left. -/
theorem eq_followedBy {place : Cursor} (h : Aligned char escape post c d)
    (hc : c = place.followedBy (char :: post)) : d = place.followedBy (escape ++ post) := by
  cases h with
  | before place' =>
    obtain ⟨hoffset, hrest⟩ := Cursor.mk.inj hc
    rw [Cursor.followedBy, hoffset, List.append_cancel_right hrest]
    rfl
  | behind _ passed =>
    simp only [hc, Cursor.followedBy, List.length_append, List.length_cons] at passed
    omega

end Aligned

namespace Scan

/-- From the place on, the character before the given text stands in no comment, in no string and in
    no file name. To where a file name is expected belong the characters of file names that stand
    there, and what is right behind them. -/
inductive Exposed (char : Char) (post : List Char) : Bool → Cursor → Prop
  | here {expectsFilename : Bool} {c place : Cursor}
      (skip : Trivia.skip c = .ok (place.followedBy (char :: post)))
      (operand : expectsFilename = true →
        (place.rest ++ char :: post).dropWhile isFilenameCharacter ≠ char :: post)
      (outside : ∀ found, lexeme expectsFilename (place.followedBy (char :: post)) = .ok found →
        found.next.rest.length ≤ post.length ∧ found.kind ≠ .string ∧ found.kind ≠ .filename) :
      Exposed char post expectsFilename c
  | later {expectsFilename : Bool} {c place : Cursor} {found : Lexeme}
      (skip : Trivia.skip c = .ok (place.followedBy (char :: post)))
      (operand : expectsFilename = true →
        (place.rest ++ char :: post).dropWhile isFilenameCharacter ≠ char :: post)
      (read : lexeme expectsFilename (place.followedBy (char :: post)) = .ok found)
      (exposed : Exposed char post found.kind.takesFilename found.next) :
      Exposed char post expectsFilename c

variable {expectsFilename : Bool} {c : Cursor}

/-- The character is in what follows the place. -/
theorem Exposed.exists_followedBy (h : Exposed char post expectsFilename c) :
    ∃ place : Cursor, c = place.followedBy (char :: post) := by
  cases h with
  | here skip => exact (Trivia.reaches_of_skip skip).exists_followedBy
  | later skip => exact (Trivia.reaches_of_skip skip).exists_followedBy

/-! ## Mistaken marks -/

/-- A text that goes on with a mistaken mark, and is at fault there. -/
def Trapped (char : Char) (escape post : List Char) (expectsFilename : Bool) (c : Cursor) : Prop :=
  ∃ place stop, c.Reaches place ∧ Mistaken char escape post place ∧
    (tokensFrom expectsFilename c).2 = some (.between place.offset stop .unrecognizedToken)

/-- A backquote before the escape is no token. -/
theorem plain_of_mistaken (h : Respells char escape)
    (hmistaken : Mistaken char escape post c) :
    ∃ stop, plain c = .error (.between c.offset stop .unrecognizedToken) := by
  obtain @⟨place, hmark, -⟩ := hmistaken
  obtain ⟨offset, cs⟩ := place
  obtain rfl : cs = ['\u0060'] := hmark
  -- before an escape the mark starts no number, no name and no operator
  have hnumeral : startsNumeral ('\u0060' :: (escape ++ post)) = false := rfl
  have hname : Name.startsAt ⟨offset, '\u0060' :: (escape ++ post)⟩ = false :=
    (Glyph.any_escape h post (List.cons_ne_nil '\u0060' []) true).trans (startsAt_backquote offset)
  have hascii : Mark.ascii? ('\u0060' :: (escape ++ post)) = none :=
    Mark.ascii?_before ['\u0060'] (h.opaque_escape post)
  have hoperator : operator? '\u0060' = none := operator?_of_lt (by decide)
  refine ⟨(Cursor.after ⟨offset, '\u0060' :: (escape ++ post)⟩ ['\u0060'] []).offset, ?_⟩
  refine (plain_cons (by decide) offset (escape ++ post)).trans ?_
  rw [hnumeral, hname, if_neg Bool.false_ne_true, if_neg Bool.false_ne_true, Mark.read, hascii]
  simp only [List.head?_cons, Option.bind_some, hoperator]
  rfl

/-- Nothing is skipped before it. -/
theorem skip_of_mistaken (hmistaken : Mistaken char escape post c) : Trivia.skip c = .ok c := by
  obtain @⟨place, hmark, -⟩ := hmistaken
  obtain ⟨offset, cs⟩ := place
  obtain rfl : cs = ['\u0060'] := hmark
  exact skip_cons (by decide) (by decide) offset (escape ++ post)

/-- The text with the escape is at fault there. -/
theorem Trapped.of_mistaken (h : Respells char escape) {place : Cursor}
    (hskip : Trivia.skip c = .ok place) (hmistaken : Mistaken char escape post place)
    (hlexeme : lexeme expectsFilename place = plain place) :
    Trapped char escape post expectsFilename c := by
  obtain ⟨stop, hplain⟩ := plain_of_mistaken h hmistaken
  exact ⟨place, stop, Trivia.reaches_of_skip hskip, hmistaken,
    fault_of_lexeme_error hskip (hlexeme.trans hplain)⟩

/-- The fault is still there if the lexemes before it are found. -/
theorem Trapped.of_lexeme {place : Cursor} {found : Lexeme} (hskip : Trivia.skip c = .ok place)
    (hne : place.rest ≠ []) (hlexeme : lexeme expectsFilename place = .ok found)
    (h : Trapped char escape post found.kind.takesFilename found.next) :
    Trapped char escape post expectsFilename c := by
  obtain ⟨trap, stop, hreaches, hmistaken, hfault⟩ := h
  have hprecedes := (Trivia.reaches_of_skip hskip).trans_precedes (precedes_of_lexeme hne hlexeme)
  refine ⟨trap, stop, hprecedes.reaches.trans hreaches, hmistaken, ?_⟩
  rw [fault_of_lexeme_ok hskip hne hlexeme]
  exact hfault

/-- So it is behind a lexeme that is mistaken to end there. -/
theorem Trapped.of_trips (h : Respells char escape) {place : Cursor}
    (hskip : Trivia.skip c = .ok place) (hne : place.rest ≠ [])
    (htrips : Trips char escape post (lexeme expectsFilename) place) :
    Trapped char escape post expectsFilename c := by
  cases htrips with
  | here read mistaken => exact .of_mistaken h hskip mistaken read
  | behind read kind mistaken =>
    exact .of_lexeme hskip hne read (kind ▸ .of_mistaken h (skip_of_mistaken mistaken) mistaken rfl)

/-! ## Whole texts -/

/-- From a place on the same tokens are found in both texts, or the text with the escape is at
    fault at a mistaken mark. -/
theorem tokensFrom_respelled (h : Respells char escape) {d : Cursor}
    (hexposed : Exposed char post expectsFilename (d.followedBy (char :: post))) :
    Alike (Token.Respelled char escape)
        (tokensFrom expectsFilename (d.followedBy (char :: post)))
        (tokensFrom expectsFilename (d.followedBy (escape ++ post))) ∨
      Trapped char escape post expectsFilename (d.followedBy (escape ++ post)) := by
  generalize hc : d.followedBy (char :: post) = c at hexposed
  -- induction on the lexemes up to the one that takes the character, or is none
  induction hexposed generalizing d with
  | @here expectsFilename c place skip operand outside =>
    subst hc
    have hskip := skip_before (h.opaque_escape post) skip
    have hne := place.followedBy_ne_nil (List.cons_ne_nil char post)
    have hne' := place.followedBy_ne_nil (h.escape_append_ne_nil post)
    rcases lexeme_respelled h operand fun found hread hkind =>
      absurd hkind (not_or.mpr (outside found hread).2) with hlexeme | htrips
    · refine .inl (.of_lexeme skip hskip (iff_of_false hne hne') ?_)
      generalize hread : lexeme expectsFilename (place.followedBy (char :: post)) = read,
        lexeme expectsFilename (place.followedBy (escape ++ post)) = read' at hlexeme
      cases hlexeme with
      | fault same => exact .fault same
      | found related =>
        -- the lexeme takes the character, and what is behind it is the same text
        have hrest := related.next.rest_eq (outside _ hread).1
        exact .found ⟨related.kind, related.token _ _, fun _ =>
          tokensFrom_elsewhere (fun hkind htext => ⟨hkind, .inl htext⟩) _ hrest⟩
    · exact .inr (.of_trips h hskip hne' htrips)
  | @later expectsFilename c place found skip operand read exposed ih =>
    subst hc
    have hskip := skip_before (h.opaque_escape post) skip
    have hne := place.followedBy_ne_nil (List.cons_ne_nil char post)
    have hne' := place.followedBy_ne_nil (h.escape_append_ne_nil post)
    obtain ⟨next, hnext⟩ := exposed.exists_followedBy
    have hends : post.length < found.next.rest.length := by
      simp only [hnext, Cursor.followedBy, List.length_append, List.length_cons]
      omega
    rcases lexeme_respelled h operand fun found' hread _ => by
      rwa [← Except.ok.inj (read.symm.trans hread)] with hlexeme | htrips
    · rw [read] at hlexeme
      generalize hread : lexeme expectsFilename (place.followedBy (escape ++ post)) = read'
        at hlexeme
      cases hlexeme with
      | @found _ found' related =>
        -- both lexemes end before the character, so the induction goes on from where they end
        have hnext' := related.next.eq_followedBy hnext
        rcases ih hnext.symm with halike | htrapped
        · refine .inl (.of_lexeme skip hskip (iff_of_false hne hne') ?_)
          rw [read, hread]
          rw [← hnext'] at halike
          exact .found ⟨related.kind, related.token _ _, fun _ => halike⟩
        · rw [related.kind, ← hnext'] at htrapped
          exact .inr (.of_lexeme hskip hne' hread htrapped)
    · exact .inr (.of_trips h hskip hne' htrips)

end Scan

/-- Scans that are alike make tokens or faults that are alike. -/
theorem tokenize_of_alike {R : Token → Token → Prop} {text text' : String}
    (h : Scan.Alike R (Scan.tokens text) (Scan.tokens text')) :
    Outcome (List.Forall₂ R) (tokenize text) (tokenize text') := by
  unfold tokenize
  generalize Scan.tokens text = scan, Scan.tokens text' = scan' at h
  obtain ⟨tokens, fault⟩ := scan
  obtain ⟨tokens', fault'⟩ := scan'
  obtain ⟨htokens, hfault⟩ := h
  cases fault with
  | none =>
    cases fault' with
    | none => exact .found htokens
    | some => cases hfault
  | some e =>
    cases fault' with
    | none => cases hfault
    | some e' => exact .fault (Option.some.inj hfault)

/-- The text with the escape has the same tokens or the same fault as the text with the character,
    unless a backquote stands right before that. Then the text with the escape may be at fault
    there. -/
theorem tokenize_respelled {pre : List Char} (h : Respells char escape)
    (hexposed : Scan.Exposed char post false (.ofText (.ofList (pre ++ char :: post)))) :
    Outcome (List.Forall₂ (Token.Respelled char escape))
        (tokenize (.ofList (pre ++ char :: post))) (tokenize (.ofList (pre ++ (escape ++ post)))) ∨
      ∃ before stop, pre = before ++ ['\u0060'] ∧ startsName char = true ∧
        tokenize (.ofList (pre ++ (escape ++ post))) =
          .error (.between (Text.byteLength before) stop .unrecognizedToken) := by
  have htext : ∀ more, Cursor.ofText (.ofList (pre ++ more)) = Cursor.followedBy ⟨0, pre⟩ more := by
    intro more
    rw [Cursor.ofText, String.toList_ofList, Cursor.followedBy]
  rw [htext] at hexposed
  -- either the two scans agree, or one stops at a context mark
  rcases Scan.tokensFrom_respelled h hexposed with halike | htrapped
  · rw [← htext, ← htext] at halike
    exact .inl (tokenize_of_alike halike)
  · obtain ⟨place, stop, ⟨before, hrest, hoffset⟩, @⟨place', hmark, hstarts⟩, hfault⟩ := htrapped
    have hpre : pre ++ (escape ++ post) = before ++ ['\u0060'] ++ (escape ++ post) := by
      rw [List.append_assoc, ← hmark]
      exact hrest
    refine .inr ⟨before, stop, List.append_cancel_right hpre, hstarts, ?_⟩
    rw [tokenize_eq_error_iff, htext, hfault, hoffset]
    exact congrArg (fun start => some (ScanError.between start stop .unrecognizedToken))
      (Nat.zero_add _)

-- what is read at a fixed place is decided by reading there
deriving instance DecidableEq for Lexeme

/-- The letter alpha has an escape. -/
theorem respells_alpha : Respells 'α' "\\[Alpha]".toList :=
  ⟨by decide, .inl (by decide +kernel),
    @Escape.Spells.named ['A', 'l', 'p', 'h', 'a'] 'α' (by decide) (by decide +kernel)⟩

/-- A summand may be written by an escape. -/
theorem respelled_summand :
    Outcome (List.Forall₂ (Token.Respelled 'α' "\\[Alpha]".toList)) (tokenize "x+α")
      (tokenize "x+\\[Alpha]") := by
  -- the scanner takes `x` and `+`, and reaches the letter as the next token
  have hexposed : Scan.Exposed 'α' [] false (.ofText (.ofList (['x', '+'] ++ ['α']))) := by
    refine @Scan.Exposed.later 'α' [] false _ ⟨0, ['x', '+']⟩ ⟨.symbol, ['x'], ⟨1, ['+', 'α']⟩⟩
      (by decide +kernel) nofun (by decide +kernel) ?_
    refine @Scan.Exposed.later 'α' [] false _ ⟨1, ['+']⟩ ⟨.plus, ['+'], ⟨2, ['α']⟩⟩
      (by decide +kernel) nofun (by decide +kernel) ?_
    refine @Scan.Exposed.here 'α' [] false _ ⟨2, []⟩ (by decide +kernel) nofun fun found hread => ?_
    have halpha : Scan.lexeme false ⟨2, ['α']⟩ = .ok ⟨.symbol, ['α'], ⟨4, []⟩⟩ := by
      decide +kernel
    cases halpha.symm.trans hread
    exact ⟨Nat.le_refl 0, nofun, nofun⟩
  rcases tokenize_respelled respells_alpha hexposed with halike | ⟨before, -, hpre, -⟩
  · exact halike
  · have hlast := congrArg List.getLast? hpre
    simp at hlast

/-- Behind a backquote an escape is at fault where the character is none. -/
theorem not_respelled_behind_mark :
    ¬∀ (char : Char) (escape pre post : List Char), Respells char escape →
      Scan.Exposed char post false (.ofText (.ofList (pre ++ char :: post))) →
      Outcome (List.Forall₂ (Token.Respelled char escape))
        (tokenize (.ofList (pre ++ char :: post)))
        (tokenize (.ofList (pre ++ (escape ++ post)))) := by
  intro h
  -- the letter belongs to the name that the scanner starts at `a`
  have hexposed : Scan.Exposed 'α' [] false (.ofText (.ofList (['a', '\u0060'] ++ ['α']))) := by
    refine @Scan.Exposed.here 'α' [] false _ ⟨0, ['a', '\u0060']⟩ (by decide +kernel) nofun
      fun found hread => ?_
    have hname : Scan.lexeme false ⟨0, ['a', '\u0060', 'α']⟩ =
        .ok ⟨.symbol, ['a', '\u0060', 'α'], ⟨4, []⟩⟩ := by
      decide +kernel
    cases hname.symm.trans hread
    exact ⟨Nat.le_refl 0, nofun, nofun⟩
  have hok : tokenize (.ofList (['a', '\u0060'] ++ ['α'])) =
      .ok [⟨.symbol, "a\u0060α", ⟨0, 4⟩⟩, .endOfInput ⟨4, 4⟩] := by
    decide +kernel
  have herror : tokenize (.ofList (['a', '\u0060'] ++ ("\\[Alpha]".toList ++ []))) =
      .error ⟨⟨1, 2⟩, .unrecognizedToken⟩ := by
    decide +kernel
  have hsame := h 'α' "\\[Alpha]".toList ['a', '\u0060'] [] respells_alpha hexposed
  rw [hok, herror] at hsame
  cases hsame

end Symbolic
