import Symbolic.Proofs.Continued.Lexemes
import Symbolic.Proofs.Layout.Trivia

/-!
# Faults that are final

A text with a fault is at fault as well when it goes on, unless the fault is an open comment or
string, or the text ends within what is at fault. Up to the fault the same lexemes are found, so
only the last of them has to be looked at: where a text ends soon after a lexeme, there is no fault
behind it, or one that more text mends.

## Key results

- `Dangling`: where a text can end so that more of it mends the fault
- `fault_of_tokensFrom`: what becomes of a fault when the text goes on
- `final_of_tokenize`: a fault is final, or `Dangling`
-/

namespace Symbolic

open Literal (append_ne_cons)

/-- Scanning from `c` on ends within what is at fault at `d`: within a lexeme that it comes to, or
    behind a name, which a symbol or a blank ends with, within an escape for a character that the
    name would go on with. -/
inductive Dangling (expects : Bool) (c : Cursor) : ScanFault → Cursor → Prop where
  | lexeme {expects' : Bool} {fault : ScanFault} {place d : Cursor}
      (visits : Scan.Visits expects c expects' place) (unfinished : Unfinished place fault d) :
      Dangling expects c fault d
  | name {expects' : Bool} {place : Cursor} {found : Lexeme}
      (visits : Scan.Visits expects c expects' place)
      (read : Scan.lexeme expects' place = .ok found)
      (kind : found.kind = .symbol ∨ found.kind = .blank) (ends : Name.EndsAt place found.next)
      (isOpen : Escape.Open (Name.Admits false) found.next.rest) :
      Dangling expects c .invalidEscape found.next

/-- What is dangling is found within the text. -/
theorem Unfinished.reaches {c d : Cursor} {fault : ScanFault} (h : Unfinished c fault d) :
    c.Reaches d := by
  cases h with
  | quoted quote within =>
    exact (Cursor.reaches_after (by rw [quote]; rfl)).trans within.reaches
  | _ => exact .refl c

/-- A place where a text dangles is one of its places. -/
theorem Dangling.reaches {expects : Bool} {c d : Cursor} {fault : ScanFault}
    (h : Dangling expects c fault d) : c.Reaches d := by
  cases h with
  | lexeme visits unfinished => exact visits.reaches.trans unfinished.reaches
  | name visits read =>
    exact visits.reaches.trans (Scan.reaches_of_lexeme read)

/-- What is dangling behind a lexeme is so from any place that the lexeme is read from. -/
theorem Dangling.later {expects : Bool} {c place d : Cursor} {found : Lexeme} {fault : ScanFault}
    (hskip : Trivia.skip c = .ok place) (hne : place.rest ≠ [])
    (hread : Scan.lexeme expects place = .ok found)
    (h : Dangling found.kind.takesFilename found.next fault d) : Dangling expects c fault d := by
  cases h with
  | lexeme visits unfinished => exact .lexeme (.later hskip hne hread visits) unfinished
  | name visits read kind ends isOpen =>
    exact .name (.later hskip hne hread visits) read kind ends isOpen

/-- The start of an escape is no escape. -/
theorem Escape.Open.exists_breaks {P : Char → Prop} {c : Cursor} (h : Open P c.rest) :
    ∃ e, read c = .error e ∧ Breaks P c e := by
  obtain ⟨hne, more, char, hmore, hspells, hchar⟩ := id h
  have hread : read (c.followedBy more) = .ok ⟨char, c.rest ++ more, []⟩ := by
    rw [Cursor.followedBy, ← hspells.read_append c.offset [], List.append_nil]
  cases hshort : read c with
  | error e =>
    obtain ⟨hopen, hfault⟩ := open_of_read hshort hne hread hchar
    exact ⟨e, rfl, hopen, hfault, (fault_of_read hshort).1⟩
  | ok found =>
    -- it would end before the text that it needs
    have hrest := congrArg Escape.rest
      (Except.ok.inj (hread.symm.trans (read_followedBy hshort more)))
    exact absurd (List.append_eq_nil_iff.mp hrest.symm).2 hmore

namespace Scan

variable {c : Cursor} {e : ScanError}

/-- The same is skipped when the text goes on, as long as what follows opens no comment. -/
theorem skip_followedBy {place : Cursor} (h : Trivia.skip c = .ok place) (hne : place.rest ≠ [])
    (hopen : place.rest ≠ ['(']) (more : List Char) :
    Trivia.skip (c.followedBy more) = .ok (place.followedBy more) := by
  obtain ⟨start, cs⟩ := c
  obtain ⟨offset, rest⟩ := place
  have hnil : Trivia.skip ⟨start, cs ++ []⟩ = .ok ⟨offset, rest ++ []⟩ := by
    rwa [List.append_nil, List.append_nil]
  refine (skip_append_eq hnil more).trans ?_
  obtain ⟨first, rest, rfl⟩ := List.exists_cons_of_ne_nil hne
  -- the skipping ended before a character that opens neither a blank nor a comment, and stands
  -- before it still
  obtain ⟨hblank, hcomment⟩ := not_open_of_skipFrom h rfl
  refine skip_of_not_open hblank (fun after hfirst => ?_) offset
  refine append_ne_cons ?_ (fun after => hcomment after hfirst) more after
  rintro rfl
  exact hopen (by rw [hfirst])

/-- A comment that is not closed is incomplete. -/
theorem isIncomplete_of_skipFrom {depth start offset : Nat} {cs : List Char}
    (h : Trivia.skipFrom depth start offset cs = .error e) : e.isIncomplete = true := by
  fun_induction Trivia.skipFrom depth start offset cs with
  | case1 _ _ _ _ ih => exact ih h
  | case2 => cases h
  | case3 _ _ _ _ ih => exact ih h
  | case4 => cases h
  | case5 _ _ _ _ _ _ _ _ ih => exact ih h
  | case6 => cases h
  | case7 =>
    cases h
    rfl

/-! ## Faults and lexemes -/

section Faults

variable {expectsFilename : Bool} {place : Cursor}

/-- A comment that is not closed is the fault of the text. -/
theorem fault_of_skip_error (h : Trivia.skip c = .error e) :
    (tokensFrom expectsFilename c).2 = some e := by
  rw [tokensFrom_of_skip_error h]

/-- So is a lexeme at fault. -/
theorem fault_of_lexeme_error (hskip : Trivia.skip c = .ok place)
    (h : lexeme expectsFilename place = .error e) : (tokensFrom expectsFilename c).2 = some e := by
  rw [tokensFrom_of_skip hskip, h]

/-- A fault behind a lexeme is one that is found from there on. -/
theorem fault_of_lexeme_ok {found : Lexeme} (hskip : Trivia.skip c = .ok place)
    (hne : place.rest ≠ []) (h : lexeme expectsFilename place = .ok found) :
    (tokensFrom expectsFilename c).2 =
      (tokensFrom found.kind.takesFilename found.next).2 := by
  rw [tokensFrom_of_skip hskip, h]
  simp only [if_neg hne]

/-- A text that ends has no fault. -/
theorem fault_of_nil (hskip : Trivia.skip c = .ok place) (hnil : place.rest = []) :
    (tokensFrom expectsFilename c).2 = none := by
  obtain ⟨offset, rest⟩ := place
  obtain rfl : rest = [] := hnil
  rw [tokensFrom_of_skip hskip, lexeme_nil]
  rfl

end Faults

/-! ## Texts that end too early -/

/-- What an operator starts with is no digit and no start of another lexeme. -/
theorem of_mem_starts : ∀ char ∈ Mark.starts, char.isDigit = false ∧ char ≠ '"' ∧
    ∀ d ∈ decisiveStarts, char ≠ d := by
  decide

/-- What starts like an operator or a bracket is a lexeme. -/
theorem exists_lexeme_of_mem_starts {first : Char} {rest : List Char} (h : first ∈ Mark.starts)
    (hnumeral : startsNumeral (first :: rest) = false) (expectsFilename : Bool) (offset : Nat) :
    ∃ found, lexeme expectsFilename ⟨offset, first :: rest⟩ = .ok found := by
  obtain ⟨-, hquote, hfirst⟩ := of_mem_starts first h
  -- no number, so a name or else an operator
  have hplain : ∃ found, plain ⟨offset, first :: rest⟩ = .ok found := by
    rw [plain_cons hfirst, hnumeral]
    by_cases hname : Name.startsAt ⟨offset, first :: rest⟩ = true
    · exact ⟨_, if_pos hname⟩
    · obtain ⟨found, hread⟩ : ∃ found, Mark.read ⟨offset, first :: rest⟩ = .ok found :=
        Mark.exists_read_of_mem_starts h offset
      exact ⟨found, (if_neg hname).trans hread⟩
  cases expectsFilename with
  | false => exact hplain
  | true =>
    -- as a file name it is one, or is read as any other lexeme
    rcases filename_cases ⟨offset, first :: rest⟩ with ⟨heq, -⟩ | ⟨-, -, hcase⟩ | ⟨-, -, hcase⟩
    · exact absurd (Option.some.inj heq) hquote
    · exact ⟨_, hcase⟩
    · obtain ⟨found, hfound⟩ := hplain
      exact ⟨found, hcase.trans hfound⟩

/-- A sign is no blank, no digit and no start of a comment, and an operator may start with it. -/
theorem of_mem_signs : ∀ char ∈ Mark.signs, Text.isBlank char = false ∧ char ≠ '(' ∧
    char.isDigit = false ∧ char ∈ Mark.starts := by
  decide

/-- No number starts among signs. -/
theorem startsNumeral_of_signs {cs : List Char} (h : ∀ char ∈ cs, char ∈ Mark.signs) :
    startsNumeral cs = false := by
  have hhead : ∀ {cs : List Char}, (∀ char ∈ cs, char ∈ Mark.signs) →
      cs.head?.any Char.isDigit = false := by
    intro cs h
    rw [Option.any_eq_false]
    exact fun char hchar => (of_mem_signs char (h char (List.mem_of_mem_head? hchar))).2.2.1
  unfold startsNumeral
  split
  · exact hhead fun char hchar => h char (.tail _ hchar)
  · exact hhead h

/-- Signs are operators, however many of them there are. -/
theorem tokensFrom_of_signs (expectsFilename : Bool) (c : Cursor)
    (h : ∀ char ∈ c.rest, char ∈ Mark.signs) : (tokensFrom expectsFilename c).2 = none := by
  -- induction on the number of signs: each is a lexeme, or the start of a longer one
  induction hn : c.rest.length using Nat.strongRecOn generalizing expectsFilename c with
  | ind n ih =>
    subst hn
    have hnumeral := startsNumeral_of_signs h
    obtain ⟨offset, cs⟩ := c
    cases cs with
    | nil => exact fault_of_nil (skip_nil offset) rfl
    | cons first rest =>
      obtain ⟨hblank, hcomment, -, hstarts⟩ := of_mem_signs first (h first List.mem_cons_self)
      obtain ⟨found, hfound⟩ :=
        exists_lexeme_of_mem_starts hstarts hnumeral expectsFilename offset
      have hprecedes := precedes_of_lexeme (List.cons_ne_nil first rest) hfound
      obtain ⟨taken, -, hrest, -⟩ := id hprecedes
      rw [fault_of_lexeme_ok (skip_cons hblank hcomment offset rest) (List.cons_ne_nil _ _) hfound]
      refine ih _ hprecedes.length_lt _ found.next (fun char hchar => h char ?_) rfl
      rw [hrest]
      exact List.mem_append_right _ hchar

/-- At the start of an escape the fault is that of the escape. -/
theorem breaks_of_open {P : Char → Prop} (hopen : Escape.Open P c.rest)
    (h : (tokensFrom false c).2 = some e) : Trivia.skip c = .ok c ∧ Escape.Breaks P c e := by
  obtain ⟨e', hread, hbreaks⟩ := hopen.exists_breaks
  obtain ⟨offset, cs⟩ := c
  obtain ⟨rest, rfl⟩ := hopen.exists_cons
  have hskip : Trivia.skip ⟨offset, '\\' :: rest⟩ = .ok ⟨offset, '\\' :: rest⟩ :=
    skip_cons (by decide) (by decide) offset rest
  have herror : lexeme false ⟨offset, '\\' :: rest⟩ = .error e' := by
    show escaped ⟨offset, '\\' :: rest⟩ = .error e'
    rw [escaped, hread]
  obtain rfl := Option.some.inj (h.symm.trans (fault_of_lexeme_error hskip herror))
  exact ⟨hskip, hbreaks⟩

/-- Where a text ends too early to tell whether a name starts, more of it mends the fault. -/
theorem dangling_of_open (hopen : Name.Open true c.rest) (h : (tokensFrom false c).2 = some e) :
    e.loc.start = Location.clamp c.offset ∧ Dangling false c e.fault c := by
  rcases hopen with hnil | hmark | hescape
  · obtain ⟨offset, cs⟩ := c
    -- nothing is left, so there is no fault
    obtain rfl : cs = [] := hnil
    cases (fault_of_nil (skip_nil offset) rfl).symm.trans h
  · obtain ⟨offset, cs⟩ := c
    -- a backquote, which a context may follow
    obtain rfl : cs = ['\u0060'] := hmark
    obtain ⟨stop, herror⟩ := plain_backquote offset
    have hskip : Trivia.skip ⟨offset, ['\u0060']⟩ = .ok ⟨offset, ['\u0060']⟩ :=
      skip_cons (by decide) (by decide) offset []
    have hfault := fault_of_lexeme_error hskip
      (show lexeme false ⟨offset, ['\u0060']⟩ = _ from herror)
    obtain rfl := Option.some.inj (h.symm.trans hfault)
    exact ⟨rfl, .lexeme (.here hskip) (.mark rfl)⟩
  · -- an escape that is not complete
    obtain ⟨hskip, hbreaks⟩ := breaks_of_open hescape h
    have hstarts : Escape.Open (fun char => Character.startsName char = true ∨
        (Character.operator? char).isSome = true) c.rest :=
      hescape.mono fun char hchar => .inl hchar
    exact ⟨hbreaks.start, hbreaks.fault ▸ .lexeme (.here hskip) (.escape hstarts)⟩

/-- So it is where a text ends too early to tell what follows a lexeme. -/
theorem dangling_of_ends {expects : Bool} {place : Cursor} {found : Lexeme}
    (hskip : Trivia.skip c = .ok place) (hne : place.rest ≠ [])
    (hread : lexeme expects place = .ok found) (hends : Ends place found)
    (h : (tokensFrom found.kind.takesFilename found.next).2 = some e) :
    e.loc.start = Location.clamp found.next.offset ∧
      Dangling expects c e.fault found.next := by
  rcases hends with hsigns | ⟨hkind, hopen⟩
  · cases (tokensFrom_of_signs _ _ hsigns).symm.trans h
  have hfilename : found.kind.takesFilename = false := by
    rcases hkind with hkind | hkind <;> rw [hkind] <;> rfl
  rw [hfilename] at h
  -- behind a name only an escape can go on with it that starts nothing by itself
  have hstarting : Name.Open true found.next.rest → e.loc.start =
      Location.clamp found.next.offset ∧ Dangling expects c e.fault found.next := by
    intro hopen
    obtain ⟨hstart, hdangling⟩ := dangling_of_open hopen h
    exact ⟨hstart, .later hskip hne hread (hfilename ▸ hdangling)⟩
  rcases hopen with hopen | ⟨hends, hnil | hmark | hescape⟩
  · exact hstarting hopen
  · exact hstarting (.inl hnil)
  · exact hstarting (.inr (.inl hmark))
  · obtain ⟨-, hbreaks⟩ := breaks_of_open hescape h
    exact ⟨hbreaks.start, hbreaks.fault ▸ .name (.here hskip) hread hkind hends hescape⟩

/-! ## Whole texts -/

/-- A parenthesis at the end of a text may become the start of a comment. There is no fault behind
    it. -/
theorem fault_of_parenthesis {expectsFilename : Bool} {place : Cursor}
    (hskip : Trivia.skip c = .ok place) (hplace : place.rest = ['(']) :
    (tokensFrom expectsFilename c).2 = none := by
  obtain ⟨offset, cs⟩ := place
  obtain rfl : cs = ['('] := hplace
  obtain ⟨found, hfound⟩ : ∃ found, lexeme expectsFilename ⟨offset, ['(']⟩ = .ok found :=
    exists_lexeme_of_mem_starts (by decide) (by decide) expectsFilename offset
  have hlt := (precedes_of_lexeme (List.cons_ne_nil '(' []) hfound).length_lt
  have hnext : found.next.rest = [] := List.length_eq_zero_iff.mp (Nat.lt_one_iff.mp hlt)
  rw [fault_of_lexeme_ok hskip (List.cons_ne_nil _ _) hfound]
  refine tokensFrom_of_signs _ _ fun char hchar => ?_
  rw [hnext] at hchar
  cases hchar

/-- What becomes of a fault when the text goes on: an open comment or string may be closed, what the
    text ends within may be mended, and every other fault stays one. -/
theorem fault_of_tokensFrom {expects : Bool} (h : (tokensFrom expects c).2 = some e) :
    e.isIncomplete = true ∨
      (∃ d, e.loc.start = Location.clamp d.offset ∧ Dangling expects c e.fault d) ∨
      ∀ more, ∃ e', (tokensFrom expects (c.followedBy more)).2 = some e' := by
  -- induction on what is left of the text, one lexeme after the other
  induction hn : c.rest.length using Nat.strongRecOn generalizing expects c with
  | ind n ih =>
    subst hn
    cases hskip : Trivia.skip c with
    | error e' =>
      cases (fault_of_skip_error hskip).symm.trans h
      exact .inl (isIncomplete_of_skipFrom hskip)
    | ok place =>
      have hreaches := Trivia.reaches_of_skip hskip
      by_cases hne : place.rest = []
      · cases (fault_of_nil hskip hne).symm.trans h
      by_cases hparenthesis : place.rest = ['(']
      · cases (fault_of_parenthesis hskip hparenthesis).symm.trans h
      have hskip' := skip_followedBy hskip hne hparenthesis
      cases hlexeme : lexeme expects place with
      | error e' =>
        -- the fault is here
        cases (fault_of_lexeme_error hskip hlexeme).symm.trans h
        refine (fault_of_lexeme hne hlexeme).imp_right (Or.imp ?_ ?_)
        · rintro ⟨d, hstart, hunfinished⟩
          exact ⟨d, hstart, .lexeme (.here hskip) hunfinished⟩
        · exact fun hfinal more => (hfinal more).imp fun _ => fault_of_lexeme_error (hskip' more)
      | ok found =>
        -- it is behind this lexeme, which is read again unless the text ends soon after it
        rw [fault_of_lexeme_ok hskip hne hlexeme] at h
        have hprecedes := hreaches.trans_precedes (precedes_of_lexeme hne hlexeme)
        rcases lexeme_followedBy hne hlexeme with hends | hsame
        · exact .inr (.inl ⟨_, dangling_of_ends hskip hne hlexeme hends h⟩)
        · refine (ih _ hprecedes.length_lt h rfl).imp_right (Or.imp ?_ ?_)
          · rintro ⟨d, hstart, hdangling⟩
            exact ⟨d, hstart, hdangling.later hskip hne hlexeme⟩
          · intro hfinal more
            rw [fault_of_lexeme_ok (hskip' more) (by simp [Cursor.followedBy, hne]) (hsame more)]
            exact hfinal more

end Scan

/-- A text is refused for the fault that ends its lexemes. -/
theorem tokenize_eq_error_iff {text : String} {e : ScanError} :
    tokenize text = .error e ↔ (Scan.tokensFrom false (.ofText text)).2 = some e := by
  rw [tokenize, Scan.tokens]
  split <;> simp_all

open Scan in
/-- A fault other than an open comment or string is final, unless the text ends within what is at
    fault. -/
theorem final_of_tokenize {text : String} {e : ScanError} (h : tokenize text = .error e)
    (hfinal : e.isIncomplete = false) :
    (∀ more, ∃ e', tokenize (text ++ more) = .error e') ∨
      ∃ before tail, text.toList = before ++ tail ∧
        e.loc.start = Location.clamp (Text.byteLength before) ∧
        Dangling false (.ofText text) e.fault ⟨Text.byteLength before, tail⟩ := by
  -- every fault is unfinished, at a place that more text mends, or there for good
  rcases fault_of_tokensFrom (tokenize_eq_error_iff.mp h) with hincomplete | hmends | hfinal'
  · cases hfinal.symm.trans hincomplete
  · obtain ⟨⟨offset, tail⟩, hstart, hdangling⟩ := hmends
    obtain ⟨before, hrest, hoffset⟩ := hdangling.reaches
    obtain rfl : offset = Text.byteLength before := hoffset.trans (Nat.zero_add _)
    exact .inr ⟨before, tail, hrest, hstart, hdangling⟩
  · refine .inl fun more => ?_
    obtain ⟨e', he'⟩ := hfinal' more.toList
    refine ⟨e', tokenize_eq_error_iff.mpr ?_⟩
    rw [Cursor.ofText, String.toList_append]
    exact he'

/-- No text behind it makes the name of a character known. -/
theorem final_unknownName :
    tokenize "x+\\[Foo]" = .error ⟨⟨2, 8⟩, .unknownNamedCharacter⟩ ∧
      ∀ more, ∃ e', tokenize ("x+\\[Foo]" ++ more) = .error e' := by
  have herror : tokenize "x+\\[Foo]" = .error ⟨⟨2, 8⟩, .unknownNamedCharacter⟩ := by
    decide +kernel
  refine ⟨herror, ?_⟩
  rcases final_of_tokenize herror rfl with hfinal | ⟨before, tail, -, -, hdangling⟩
  · exact hfinal
  · generalize hfault : ScanFault.unknownNamedCharacter = fault,
      Cursor.mk (Text.byteLength before) tail = d at hdangling
    cases hdangling with
    | lexeme _ unfinished => cases unfinished <;> cases hfault
    | name => cases hfault

/-- The fault of `1*^` does not count as incomplete, and still a digit mends it. -/
theorem not_final_exponent :
    ¬∀ (text more : String) (e : ScanError), tokenize text = .error e → e.isIncomplete = false →
      ∃ e', tokenize (text ++ more) = .error e' := by
  intro h
  have herror : tokenize "1*^" = .error ⟨⟨0, 3⟩, .incompleteNumber⟩ := by
    decide +kernel
  obtain ⟨e', he'⟩ := h "1*^" "5" _ herror rfl
  have hok : tokenize ("1*^" ++ "5") =
      .ok [⟨.number, "1*^5", ⟨0, 4⟩⟩, .endOfInput ⟨4, 4⟩] := by
    decide +kernel
  cases hok.symm.trans he'

end Symbolic
