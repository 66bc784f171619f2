import Symbolic.Proofs.Continued.Literal
import Symbolic.Proofs.Layout.Pieces

/-!
# Names and quoted text of texts that go on

What is read at a place is read there as well when the text goes on, unless the text ends too early
to tell: right behind what is read, at a context mark, or within an escape.

## Key results

- `Escape.Open`: the text ends within an escape
- `Name.readFrom_followedBy`, `Placeholder.read_followedBy`: names and blanks of patterns
- `Quoted.read_followedBy`, `Quoted.fault_of_read`: quoted text
-/

namespace Symbolic

open Literal (append_ne_cons)

/-- The same place in a text that goes on. -/
def Cursor.followedBy (c : Cursor) (more : List Char) : Cursor :=
  ⟨c.offset, c.rest ++ more⟩

/-- The same lexeme in a text that goes on. -/
def Lexeme.followedBy (found : Lexeme) (more : List Char) : Lexeme :=
  { found with next := found.next.followedBy more }

/-! ## Escapes -/

namespace Escape

variable {P : Char → Prop} {c : Cursor}

/-- The text is the start of an escape, but not all of it, for a character with the property. -/
def Open (P : Char → Prop) (cs : List Char) : Prop :=
  cs ≠ [] ∧ ∃ more char, more ≠ [] ∧ Spells (cs ++ more) char ∧ P char

/-- What may become an escape of some characters may become one of more. -/
theorem Open.mono {Q : Char → Prop} {cs : List Char} (h : Open P cs) (himp : ∀ c, P c → Q c) :
    Open Q cs := by
  obtain ⟨hne, more, char, hmore, hspells, hchar⟩ := h
  exact ⟨hne, more, char, hmore, hspells, himp char hchar⟩

/-- An escape that may go on starts with a backslash. -/
theorem Open.exists_cons {cs : List Char} (h : Open P cs) : ∃ rest, cs = '\\' :: rest := by
  obtain ⟨hne, more, char, -, hspells, -⟩ := h
  obtain ⟨first, rest, rfl⟩ := List.exists_cons_of_ne_nil hne
  generalize hsource : first :: rest ++ more = source at hspells
  cases hspells <;> exact ⟨rest, by rw [(List.cons.inj hsource).1]⟩

/-- An escape is read as well when the text goes on. -/
theorem read_followedBy {e : Escape} (h : read c = .ok e) (more : List Char) :
    read (c.followedBy more) = .ok { e with rest := e.rest ++ more } := by
  have hread := read_append h c.offset (e.rest ++ more)
  rwa [← List.append_assoc, ← (source_append_rest_of_read h).1] at hread

/-- The source is an escape that names no known character. -/
inductive Misspells : List Char → Prop where
  | unknown {name : List Char} (isName : isName name = true)
      (unknown : Character.ofName? (.ofList name) = none) :
      Misspells ('\\' :: '[' :: (name ++ [']']))

/-- An escape that names no known character is at fault whatever follows it. -/
theorem Misspells.read_append {source : List Char} (h : Misspells source) (offset : Nat)
    (rest : List Char) :
    ∃ e, read ⟨offset, source ++ rest⟩ = .error e ∧ e.fault = .unknownNamedCharacter := by
  obtain @⟨name, hname, hunknown⟩ := h
  have hsplit := splitOnce?_of_isName hname rest
  refine ⟨.between offset (offset + Text.byteLength ('\\' :: '[' :: (name ++ [']'])))
    .unknownNamedCharacter, ?_, rfl⟩
  simp [read, hsplit, hname, hunknown, Cursor.after]

/-- An escape is at fault where it starts. -/
theorem fault_of_read {e : ScanError} (h : read c = .error e) :
    e.loc.start = Location.clamp c.offset ∧
      (e.fault = .invalidEscape ∨
        e.fault = .unknownNamedCharacter ∧
          ∃ source rest, c.rest = source ++ rest ∧ Misspells source) := by
  unfold read at h
  split at h
  · rename_i body hrest
    split at h
    · rename_i name rest hsplit
      dsimp only at h
      split at h
      · rename_i hname
        split at h
        · cases h
        · -- a name in brackets that no character has
          rename_i hunknown
          cases h
          refine ⟨rfl, .inr ⟨rfl, _, rest, ?_, .unknown hname hunknown⟩⟩
          rw [hrest, Text.eq_of_splitOnce? hsplit]
          rfl
      · cases h
        exact ⟨rfl, .inl rfl⟩
    · cases h
      exact ⟨rfl, .inl rfl⟩
  · split at h
    · cases h
    · cases h
      exact ⟨rfl, .inl rfl⟩
  · cases h
    exact ⟨rfl, .inl rfl⟩

/-- What is no escape becomes one for a character with the property only if the text ends within
    that escape. -/
theorem open_of_read {e : ScanError} {more : List Char} {found : Escape} (h : read c = .error e)
    (hne : c.rest ≠ []) (hmore : read (c.followedBy more) = .ok found) (hchar : P found.char) :
    Open P c.rest ∧ e.fault = .invalidEscape := by
  refine ⟨?_, ?_⟩
  · -- the escape that is found ends behind the text, or it would have been found before
    have hspells := spells_of_read hmore
    have hrest : c.rest ++ more = found.source ++ found.rest :=
      (source_append_rest_of_read hmore).1
    rcases List.append_eq_append_iff.mp hrest with ⟨rest, hsource, -⟩ | ⟨rest, hsource, -⟩
    · refine ⟨hne, rest, found.char, ?_, hsource ▸ hspells, hchar⟩
      rintro rfl
      have hread := hspells.read_append c.offset []
      rw [hsource, List.append_nil, List.append_nil] at hread
      cases h.symm.trans hread
    · have hread := hspells.read_append c.offset rest
      rw [← hsource] at hread
      cases h.symm.trans hread
  · -- a name that is unknown stays so
    rcases (fault_of_read h).2 with hfault | ⟨-, source, rest, hrest, hmisspells⟩
    · exact hfault
    · obtain ⟨e', herror, -⟩ := hmisspells.read_append c.offset (rest ++ more)
      rw [← List.append_assoc, ← hrest] at herror
      cases hmore.symm.trans herror

/-- The fault is that of an escape, and the text ends within it. -/
structure Breaks (P : Char → Prop) (c : Cursor) (e : ScanError) : Prop where
  isOpen : Open P c.rest
  fault : e.fault = .invalidEscape
  start : e.loc.start = Location.clamp c.offset

/-- What is no escape does not become one for a character with the property, unless the text ends
    within that. -/
theorem breaks_of_read (P : Char → Prop) {e : ScanError} (h : read c = .error e)
    (hne : c.rest ≠ []) : Breaks P c e ∨
      ∀ more found, read (c.followedBy more) = .ok found → ¬P found.char := by
  refine Classical.or_iff_not_imp_left.mpr fun hnot more found hmore hchar => hnot ?_
  obtain ⟨hopen, hfault⟩ := open_of_read h hne hmore hchar
  exact ⟨hopen, hfault, (fault_of_read h).1⟩

end Escape

/-! ## Names -/

namespace Glyph

variable {c : Cursor} {g : Glyph}

/-- The character at a place is decoded as well when the text goes on. -/
theorem at?_followedBy (h : at? c = some g) (more : List Char) :
    at? (c.followedBy more) = some { g with next := g.next.followedBy more } := by
  unfold at? at h
  split at h
  · cases h
  · rename_i rest hrest
    split at h
    · -- an escape, which is complete
      rename_i escape hread
      cases h
      have hrest' : (c.followedBy more).rest = '\\' :: (rest ++ more) := by
        rw [Cursor.followedBy, hrest]
        rfl
      simp only [at?, hrest', Escape.read_followedBy hread]
      rfl
    · cases h
  · -- any other character stands for itself
    rename_i char rest hescape hrest
    cases h
    obtain ⟨offset, cs⟩ := c
    obtain rfl : cs = char :: rest := hrest
    exact at?_cons (fun heq => hescape (heq ▸ rfl)) offset (rest ++ more)

/-- What is no character becomes one only at the end of the text, or where that is within an
    escape. -/
theorem at?_eq_none {P : Char → Prop} (h : at? c = none) :
    c.rest = [] ∨ Escape.Open P c.rest ∨
      ∀ more g, at? (c.followedBy more) = some g → g.escaped = true ∧ ¬P g.char := by
  unfold at? at h
  split at h
  · exact .inl ‹_›
  · rename_i rest hrest
    split at h
    · cases h
    · rename_i e hread
      -- what is decoded later is an escape that was not complete
      refine .inr (Classical.or_iff_not_imp_left.mpr fun hopen more g hat => ?_)
      have hrest' : (c.followedBy more).rest = '\\' :: (rest ++ more) := by
        rw [Cursor.followedBy, hrest]
        rfl
      simp only [at?, hrest'] at hat
      split at hat
      · rename_i escape hmore
        cases hat
        refine ⟨rfl, fun hchar => hopen (Escape.open_of_read hread ?_ hmore hchar).1⟩
        rw [hrest]
        exact List.cons_ne_nil _ _
      · cases hat
  · cases h

/-- Whether a character belongs to a name is seen from the next one. -/
theorem belongs_followedBy (h : g.next.rest ≠ []) (more : List Char) (first : Bool) :
    Glyph.belongs { g with next := g.next.followedBy more } first = g.belongs first := by
  have hhead : (g.next.rest ++ more).head? = g.next.rest.head? :=
    List.head?_append_of_ne_nil _ h
  simp only [belongs, marksContext, Cursor.followedBy, hhead]

/-- Only a plain backquote needs to know what comes after it. -/
theorem belongs_followedBy_of_not_mark (h : g.escaped = false → g.char ≠ '\u0060')
    (more : List Char) (first : Bool) :
    Glyph.belongs { g with next := g.next.followedBy more } first = g.belongs first := by
  have hmark : ∀ next, Glyph.marksContext { g with next := next } = false := by
    intro next
    cases hescaped : g.escaped with
    | true => rfl
    | false => simp [marksContext, h hescaped]
  rw [belongs, belongs, hmark, hmark g.next]

/-- By an escape a name is given no context mark, but a character that it admits. -/
theorem admits_of_belongs {first : Bool} (hescaped : g.escaped = true)
    (h : g.belongs first = true) : Name.Admits first g.char := by
  rw [belongs, marksContext, hescaped] at h
  exact h

end Glyph

namespace Name

/-- A text that ends too early to tell whether a name starts there, or goes on. -/
def Open (first : Bool) (cs : List Char) : Prop :=
  cs = [] ∨ cs = ['\u0060'] ∨ Escape.Open (Admits first) cs

/-- A name ends at `d` that starts at `c` or behind it. -/
def EndsAt (c d : Cursor) : Prop :=
  ∃ start, c.Reaches start ∧ startsAt start = true ∧ (read start).2 = d

/-- The text ends too early to tell what follows: behind a name whether that goes on, and elsewhere
    whether one starts. -/
def OpenAt (c d : Cursor) : Prop :=
  Open true d.rest ∨ EndsAt c d ∧ Open false d.rest

/-- A name may go on at a place whichever place behind its start it is read from. -/
theorem OpenAt.of_reaches {c c' d : Cursor} (hreaches : c.Reaches c') (h : OpenAt c' d) :
    OpenAt c d := by
  rcases h with hopen | ⟨⟨start, hstart, hends⟩, hopen⟩
  · exact .inl hopen
  · exact .inr ⟨⟨start, hreaches.trans hstart, hends⟩, hopen⟩

/-- Whether a character of a name stands at a place does not depend on how the text goes on. -/
theorem any_followedBy (first : Bool) (c : Cursor) : Open first c.rest ∨ ∀ more,
    (Glyph.at? (c.followedBy more)).any (·.belongs first) =
      (Glyph.at? c).any (·.belongs first) := by
  cases hat : Glyph.at? c with
  | none =>
    -- nothing is decoded: the text ends, or within an escape
    rcases Glyph.at?_eq_none hat with hnil | hescape | hnone
    · exact .inl (.inl hnil)
    · exact .inl (.inr (.inr hescape))
    · refine .inr fun more => ?_
      rw [Option.any_none, Option.any_eq_false]
      intro g hg
      obtain ⟨hescaped, hchar⟩ := hnone more g hg
      exact Bool.eq_false_iff.mpr fun hbelongs =>
        hchar (Glyph.admits_of_belongs hescaped hbelongs)
  | some g =>
    have hmore : ∀ more, (Glyph.at? (c.followedBy more)).any (·.belongs first) =
        Glyph.belongs { g with next := g.next.followedBy more } first := by
      intro more
      rw [Glyph.at?_followedBy hat]
      rfl
    by_cases hmark : g.escaped = false → g.char ≠ '\u0060'
    · exact .inr fun more => by
        rw [hmore, Glyph.belongs_followedBy_of_not_mark hmark, Option.any_some]
    -- a plain backquote, which depends on the next character
    obtain ⟨hescaped, hchar⟩ := Classical.not_imp.mp hmark
    by_cases hnext : g.next.rest = []
    · rcases Glyph.passes_of_at? hat with ⟨-, hpasses⟩ | ⟨hescaped', -⟩
      · refine .inl (.inr (.inl ?_))
        rw [hpasses.1, hnext, Classical.not_not.mp hchar]
        rfl
      · cases hescaped.symm.trans hescaped'
    · exact .inr fun more => by
        rw [hmore, Glyph.belongs_followedBy hnext, Option.any_some]

/-- A name starts as well when the text goes on, unless the text may go on with one. -/
theorem startsAt_followedBy (c : Cursor) :
    Open true c.rest ∨ ∀ more, startsAt (c.followedBy more) = startsAt c :=
  any_followedBy true c

/-- Where no character of a name stands, none is read when the text goes on. -/
theorem readFrom_of_not_any_followedBy {first : Bool} {c : Cursor}
    (h : (Glyph.at? c).any (·.belongs first) = false) : Open first c.rest ∨
      ∀ more, readFrom first (c.followedBy more) = ([], c.followedBy more) := by
  refine (any_followedBy first c).imp_right fun hsame more => ?_
  exact readFrom_of_not_any ((hsame more).trans h)

/-- The rest of a name is read as well when the text goes on, unless it may be longer. -/
theorem readFrom_followedBy {first : Bool} {c : Cursor}
    (h : (Glyph.at? c).any (·.belongs first) = true) : Open false (readFrom first c).2.rest ∨
      ∀ more, readFrom first (c.followedBy more) =
        ((readFrom first c).1, (readFrom first c).2.followedBy more) := by
  fun_induction readFrom first c with
  | case1 first c hat =>
    rw [hat] at h
    cases h
  | case2 first c g hat hbelongs name next hread ih =>
    by_cases hnext : g.next.rest = []
    · -- the text ends right behind this character
      refine .inl (.inl ?_)
      have hnone : readFrom false g.next = ([], g.next) :=
        readFrom_of_not_any (by simp [Glyph.at?, hnext])
      rw [hread] at hnone
      rw [(Prod.mk.inj hnone).2, hnext]
    have hlater : Open false (readFrom false g.next).2.rest ∨ ∀ more,
        readFrom false (g.next.followedBy more) =
          ((readFrom false g.next).1, (readFrom false g.next).2.followedBy more) := by
      cases hany : (Glyph.at? g.next).any (·.belongs false) with
      | true => exact ih hany
      | false =>
        rw [readFrom_of_not_any hany]
        exact readFrom_of_not_any_followedBy hany
    rw [hread] at hlater
    refine hlater.imp_right fun hmore more => ?_
    rw [readFrom_of_belongs (Glyph.at?_followedBy hat more)
      ((Glyph.belongs_followedBy hnext more first).trans hbelongs), hmore]
  | case3 first c g hat hbelongs =>
    rw [hat] at h
    exact absurd h hbelongs

/-- A name is read as well when the text goes on, unless it is open whether one starts or goes on
    where the text ends. -/
theorem read_followedBy (c : Cursor) : OpenAt c (read c).2 ∨
    ∀ more, read (c.followedBy more) = ((read c).1, (read c).2.followedBy more) := by
  cases hstarts : startsAt c with
  | true =>
    exact (readFrom_followedBy hstarts).imp_left fun hopen =>
      .inr ⟨⟨c, .refl c, hstarts, rfl⟩, hopen⟩
  | false =>
    have hnone : read c = ([], c) := readFrom_of_not_any hstarts
    rw [hnone]
    exact (readFrom_of_not_any_followedBy hstarts).imp_left .inl

end Name

/-! ## Blanks of patterns -/

namespace Placeholder

/-- The underscores of a blank are the same when the text goes on behind something else. -/
theorem marks_append_of_ne_nil {cs : List Char} (h : (marks cs).2 ≠ []) (more : List Char) :
    marks (cs ++ more) = ((marks cs).1, (marks cs).2 ++ more) := by
  have hclaim : ∀ {rest : List Char}, rest ≠ [] → claimsPoint (rest ++ more) = claimsPoint rest :=
    fun hrest => by rw [claimsPoint, List.head?_append_of_ne_nil _ hrest, claimsPoint]
  revert h
  -- up to three underscores, or one before a point
  fun_cases marks cs with
  | case1 rest hclaims =>
    intro h
    have hrest : rest ≠ [] := by
      rintro rfl
      cases hclaims
    -- what follows the point claims it, and so is not empty
    simp only [List.cons_append, marks, hclaim hrest, hclaims, if_true]
  | case2 rest hclaims =>
    intro h
    simp only [List.cons_append, marks, hclaim h, hclaims]
    rfl
  | case3 rest => exact fun _ => rfl
  | case4 rest hthird =>
    intro h
    rw [List.cons_append, List.cons_append, marks]
    exact append_ne_cons h hthird more
  | case5 rest hpoint hthird hsecond =>
    intro h
    rw [List.cons_append, marks]
    · exact append_ne_cons h hpoint more
    · exact fun after => append_ne_cons h hsecond more _
    · exact append_ne_cons h hsecond more
  | case6 _ _ _ _ hfirst =>
    intro h
    have hnot := append_ne_cons h hfirst more
    rw [marks]
    · exact fun after => hnot _
    · exact fun after => hnot _
    · exact fun after => hnot _
    · exact hnot

/-- An underscore before a point is an optional blank. -/
theorem read_of_optional {name : List Char} {c : Cursor} (h : (marks c.rest).1 = ['_', '.']) :
    read name c = ⟨.blank, name ++ ['_', '.'], c.after ['_', '.'] (marks c.rest).2⟩ := by
  simp [read, h]

/-- Any other blank takes its underscores and the head behind them. -/
theorem read_of_not_optional {name : List Char} {c : Cursor} (h : (marks c.rest).1 ≠ ['_', '.']) :
    read name c = ⟨.blank, name ++ (marks c.rest).1 ++
        (Name.read (c.after (marks c.rest).1 (marks c.rest).2)).1,
      (Name.read (c.after (marks c.rest).1 (marks c.rest).2)).2⟩ := by
  simp [read, h]

/-- A blank is read as well when the text goes on, unless it is open whether a head starts or goes
    on where the text ends. -/
theorem read_followedBy (name : List Char) (c : Cursor) : Name.OpenAt c (read name c).next ∨
    ∀ more, read name (c.followedBy more) = (read name c).followedBy more := by
  by_cases hend : (marks c.rest).2 = []
  · -- the text ends right behind the underscores
    refine .inl (.inl (.inl ?_))
    by_cases hoptional : (marks c.rest).1 = ['_', '.']
    · rw [read_of_optional hoptional]
      exact hend
    · have hnone : Name.read (c.after (marks c.rest).1 []) = ([], c.after (marks c.rest).1 []) :=
        Name.readFrom_of_not_any rfl
      rw [read_of_not_optional hoptional, hend, hnone]
      rfl
  have hmarks := marks_append_of_ne_nil hend
  -- the underscores are complete, so only the name behind them may go on
  have hfollowed : ∀ more, marks (c.followedBy more).rest =
      ((marks c.rest).1, (marks c.rest).2 ++ more) := hmarks
  by_cases hoptional : (marks c.rest).1 = ['_', '.']
  · refine .inr fun more => ?_
    rw [read_of_optional hoptional, read_of_optional (by rw [hfollowed]; exact hoptional),
      hfollowed]
    rfl
  · rw [read_of_not_optional hoptional]
    have hreaches : c.Reaches (c.after (marks c.rest).1 (marks c.rest).2) :=
      Cursor.reaches_after (append_marks c.rest).symm
    refine (Name.read_followedBy _).imp (fun hopen => hopen.of_reaches hreaches) ?_
    intro hmore more
    rw [read_of_not_optional (by rw [hfollowed]; exact hoptional), hfollowed]
    have hname : Name.read ((c.followedBy more).after (marks c.rest).1
        ((marks c.rest).2 ++ more)) = _ := hmore more
    rw [hname]
    rfl

end Placeholder

/-! ## Quoted text -/

namespace Quoted

variable {start : Nat} {c next : Cursor} {text : List Char} {e : ScanError}

/-- A piece of a string is read as well when the text goes on. -/
theorem piece_followedBy (h : piece start c = .ok (text, next)) (more : List Char) :
    piece start (c.followedBy more) = .ok (text, next.followedBy more) := by
  obtain ⟨source, -, ⟨hrest, hoffset⟩, hread⟩ := exists_piece_append h
  rw [Cursor.followedBy, hrest, List.append_assoc, hread, ← hoffset]
  rfl

/-- A string is read as well when the text goes on. -/
theorem read_followedBy (hne : c.rest ≠ []) (h : read c = .ok (text, next)) (more : List Char) :
    read (c.followedBy more) = .ok (text, next.followedBy more) := by
  obtain ⟨source, ⟨hrest, hoffset⟩, hread⟩ := exists_body_append h
  obtain ⟨offset, cs⟩ := c
  obtain ⟨first, rest, rfl⟩ := List.exists_cons_of_ne_nil hne
  have hbody := hread offset (offset + Text.byteLength ['"']) (next.rest ++ more)
  obtain rfl : rest = source ++ next.rest := hrest
  rw [← List.append_assoc] at hbody
  refine hbody.trans ?_
  rw [Cursor.followedBy, hoffset]
  rfl

/-- A piece at fault stays at fault, unless the text ends within it. -/
theorem fault_of_piece (h : piece start c = .error e) : e.isIncomplete = true ∨
    Escape.Breaks (fun _ => True) c e ∨
      ∀ more, ∃ e', piece start (c.followedBy more) = .error e' := by
  unfold piece at h
  split at h
  · rename_i rest hrest
    split at h
    · cases h
      exact .inl rfl
    · rename_i mark rest
      split at h
      · rename_i hmark
        split at h
        · cases h
        · rename_i hread
          cases h
          have hne : c.rest ≠ [] := by simp [hrest]
          -- an escape that no text completes is at fault whatever follows
          refine .inr ((Escape.breaks_of_read _ hread hne).imp_right fun hnone more => ?_)
          have hrest' : (c.followedBy more).rest = '\\' :: mark :: (rest ++ more) := by
            rw [Cursor.followedBy, hrest]
            rfl
          cases hmore : Escape.read (c.followedBy more) with
          | ok found => exact (hnone more found hmore trivial).elim
          | error e' => exact ⟨e', by simp [piece, hrest', hmark, hmore]⟩
      · cases h
  · cases h
  · cases h
    exact .inl rfl

/-- Reading on to the closing quote comes to the place: there is no closing quote before it. -/
inductive Within (start : Nat) : Cursor → Cursor → Prop
  | here (c : Cursor) : Within start c c
  | later {c next d : Cursor} {text : List Char} (noQuote : ∀ rest, c.rest ≠ '"' :: rest)
      (read : piece start c = .ok (text, next)) (within : Within start next d) : Within start c d

/-- The places within a string come behind its start. -/
theorem Within.reaches {d : Cursor} (h : Within start c d) : c.Reaches d := by
  induction h with
  | here c => exact .refl c
  | later _ read _ ih => exact (precedes_of_piece read).reaches.trans ih

/-- A string fails as the next piece of it does. -/
theorem body_of_piece_error (hquote : ∀ rest, c.rest ≠ '"' :: rest) (h : piece start c = .error e) :
    body start c = .error e := by
  rw [body]
  split
  · exact absurd ‹_› (hquote _)
  · split
    · rename_i herror
      rw [Except.error.inj (h.symm.trans herror)]
    · rename_i hpiece
      cases h.symm.trans hpiece

/-- Quoted text at fault stays at fault, unless the text ends within it. -/
theorem fault_of_body (h : body start c = .error e) : e.isIncomplete = true ∨
    (∃ d, Within start c d ∧ Escape.Breaks (fun _ => True) d e) ∨
      ∀ more, ∃ e', body start (c.followedBy more) = .error e' := by
  -- every piece is read again when the text goes on, up to the one at fault
  have hquote' : ∀ {c : Cursor}, c.rest ≠ [] → (∀ rest, c.rest ≠ '"' :: rest) →
      ∀ more rest, (c.followedBy more).rest ≠ '"' :: rest :=
    fun hne hquote => append_ne_cons hne hquote
  fun_induction body start c with
  | case1 => cases h
  | case2 c e' hpiece hquote =>
    cases h
    by_cases hne : c.rest = []
    · -- the closing quote is missing
      simp only [piece, hne] at hpiece
      cases hpiece
      exact .inl rfl
    · rcases fault_of_piece hpiece with hincomplete | hbreaks | hfinal
      · exact .inl hincomplete
      · exact .inr (.inl ⟨c, .here c, hbreaks⟩)
      · refine .inr (.inr fun more => ?_)
        obtain ⟨e'', hpiece'⟩ := hfinal more
        exact ⟨e'', body_of_piece_error (hquote' hne hquote more) hpiece'⟩
  | case3 c text next hpiece e' hbody hquote ih =>
    cases h
    rcases ih hbody with hincomplete | ⟨d, hd, hbreaks⟩ | hfinal
    · exact .inl hincomplete
    · exact .inr (.inl ⟨d, .later hquote hpiece hd, hbreaks⟩)
    · refine .inr (.inr fun more => ?_)
      obtain ⟨e'', hbody'⟩ := hfinal more
      have hne : c.rest ≠ [] := by
        intro hnil
        have hlt := (precedes_of_piece hpiece).length_lt
        simp [hnil] at hlt
      exact ⟨e'', by rw [Scan.body_of_piece (hquote' hne hquote more)
        (piece_followedBy hpiece more), hbody']; rfl⟩
  | case4 => cases h

/-- Quoted text at fault stays at fault, unless the text ends within it. -/
theorem fault_of_read {rest : List Char} (hc : c.rest = '"' :: rest) (h : read c = .error e) :
    e.isIncomplete = true ∨
      (∃ d, Within c.offset (c.after ['"'] rest) d ∧ Escape.Breaks (fun _ => True) d e) ∨
      ∀ more, ∃ e', read (c.followedBy more) = .error e' := by
  have hbody : ∀ rest offset, read ⟨offset, '"' :: rest⟩ =
      body offset (Cursor.after ⟨offset, '"' :: rest⟩ ['"'] rest) := fun _ _ => rfl
  obtain ⟨offset, cs⟩ := c
  obtain rfl : cs = '"' :: rest := hc
  rw [hbody] at h
  refine (fault_of_body h).imp_right (Or.imp_right fun hfinal more => ?_)
  obtain ⟨e', he'⟩ := hfinal more
  exact ⟨e', (hbody (rest ++ more) offset).trans he'⟩

end Quoted

end Symbolic
