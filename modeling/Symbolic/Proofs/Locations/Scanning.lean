import Symbolic.Token.Scan

/-!
# Where tokens and faults are

Scanning moves over whole characters only, and wherever it takes note of a place, it is at one that
it has moved to or is about to move to. So each token, and the fault that ends them, is located at
a stretch of characters of the text.

## Key results

- `Cursor.Holds`: the locations of stretches of a text
- `holds_of_skip`, `holds_of_lexeme_error`: faults
- `holds_of_tokensFrom`: the tokens of a text, and the fault that ends them
-/

namespace Symbolic

namespace Cursor

/-- The location is that of some characters in a row, at the cursor or further on. -/
def Holds (c : Cursor) (loc : Location) : Prop :=
  ∃ d e, c.Reaches d ∧ d.Reaches e ∧ loc = .ofOffsets d.offset e.offset

variable {c d : Cursor} {loc : Location}

/-- What a scanner moves over is a stretch of the text. -/
theorem holds_of_reaches (h : c.Reaches d) : c.Holds (.ofOffsets c.offset d.offset) :=
  ⟨c, d, .refl c, h, rfl⟩

/-- Some characters in a row, given by how many bytes they take. -/
theorem holds_of_rest_eq (taken rest : List Char) {stop : Nat} (h : c.rest = taken ++ rest)
    (hstop : stop = c.offset + Text.byteLength taken) : c.Holds (.ofOffsets c.offset stop) :=
  hstop ▸ holds_of_reaches (reaches_after h)

/-- A stretch of what is left is one of the text. -/
theorem Reaches.trans_holds (h : c.Reaches d) (hd : d.Holds loc) : c.Holds loc := by
  obtain ⟨e, f, hde, hef, hloc⟩ := hd
  exact ⟨e, f, h.trans hde, hef, hloc⟩

end Cursor

open Cursor Text

/-! ## Faults between tokens -/

/-- The outermost comment that is open has been opened further back. -/
theorem holds_of_skipFrom {depth start offset : Nat} {cs : List Char} {e : ScanError} {c : Cursor}
    (hc : c.Reaches ⟨offset, cs⟩)
    (hopen : depth ≠ 0 → ∃ d, c.Reaches d ∧ d.Reaches ⟨offset, cs⟩ ∧ d.offset = start)
    (h : Trivia.skipFrom depth start offset cs = .error e) : c.Holds e.loc := by
  fun_induction Trivia.skipFrom depth start offset cs with
  | case1 depth start offset rest ih =>
    have hmark : Reaches ⟨offset, '(' :: '*' :: rest⟩ ⟨offset + 2, rest⟩ := ⟨['(', '*'], rfl, rfl⟩
    refine ih (hc.trans hmark) (fun _ => ?_) h
    by_cases hdepth : depth = 0
    · -- this is the outermost one
      exact ⟨_, hc, hmark, by simp [hdepth]⟩
    · obtain ⟨d, hd, hopened, hstart⟩ := hopen hdepth
      exact ⟨d, hd, hopened.trans hmark, by simp [hdepth, hstart]⟩
  | case2 => cases h
  | case3 start offset rest depth ih =>
    have hmark : Reaches ⟨offset, '*' :: ')' :: rest⟩ ⟨offset + 2, rest⟩ := ⟨['*', ')'], rfl, rfl⟩
    obtain ⟨d, hd, hopened, hstart⟩ := hopen (Nat.succ_ne_zero depth)
    exact ih (hc.trans hmark) (fun _ => ⟨d, hd, hopened.trans hmark, hstart⟩) h
  | case4 => cases h
  | case5 depth start offset char rest _ _ _ ih =>
    have hchar : Reaches ⟨offset, char :: rest⟩ ⟨offset + char.utf8Size, rest⟩ := ⟨[char], rfl, rfl⟩
    refine ih (hc.trans hchar) (fun hdepth => ?_) h
    obtain ⟨d, hd, hopened, hstart⟩ := hopen hdepth
    exact ⟨d, hd, hopened.trans hchar, hstart⟩
  | case6 => cases h
  | case7 depth start offset hdepth =>
    cases h
    obtain ⟨d, hd, hopened, rfl⟩ := hopen hdepth
    exact hd.trans_holds (holds_of_reaches hopened)

/-- The fault of a comment is a stretch of the text. -/
theorem holds_of_skip {c : Cursor} {e : ScanError} (h : Trivia.skip c = .error e) :
    c.Holds e.loc :=
  holds_of_skipFrom (.refl c) (fun hdepth => absurd rfl hdepth) h

/-! ## Faults in lexemes -/

/-- So is the fault of an escape. -/
theorem holds_of_escape {c : Cursor} {e : ScanError} (h : Escape.read c = .error e) :
    c.Holds e.loc := by
  unfold Escape.read at h
  split at h
  · rename_i body hrest
    have hmark : c.Holds (.ofOffsets c.offset (c.offset + 2)) :=
      holds_of_rest_eq ['\\', '['] body hrest rfl
    split at h
    · rename_i name rest hsplit
      simp only at h
      split at h
      · split at h
        · cases h
        · -- a name without a meaning is located up to its closing bracket
          cases h
          refine holds_of_rest_eq _ rest ?_ rfl
          simp [hrest, Text.eq_of_splitOnce? hsplit]
      · cases h
        exact hmark
    · cases h
      exact hmark
  · rename_i body hrest
    split at h
    · cases h
    · cases h
      exact holds_of_rest_eq ['\\', ':'] body hrest rfl
  · cases h
    exact holds_of_rest_eq _ _ (List.take_append_drop 2 _).symm rfl

/-- So is the fault of a lexeme that an escape starts. -/
theorem holds_of_escaped {c : Cursor} {e : ScanError} (h : Scan.escaped c = .error e) :
    c.Holds e.loc := by
  unfold Scan.escaped at h
  split at h
  · rename_i hread
    cases h
    exact holds_of_escape hread
  · rename_i escape hread
    split at h
    · cases h
    · split at h
      · cases h
      · cases h
        -- an escape that starts nothing is reported as a whole
        exact holds_of_reaches (Escape.precedes_next hread).reaches

/-- The quotes have been opened further back. -/
theorem holds_of_piece {c d : Cursor} {e : ScanError} (hd : d.Reaches c)
    (h : Quoted.piece d.offset c = .error e) : d.Holds e.loc := by
  unfold Quoted.piece at h
  split at h
  · rename_i rest hrest
    split at h
    · cases h
      -- a string that ends in a backslash reaches to the end of the text
      exact holds_of_reaches (hd.trans (reaches_after (List.append_nil _).symm))
    · split at h
      · split at h
        · cases h
        · rename_i hread
          cases h
          -- an escape is reported by itself
          exact hd.trans_holds (holds_of_escape hread)
      · cases h
  · cases h
  · cases h
    exact holds_of_reaches hd

/-- So is the fault of a piece of a string. -/
theorem holds_of_body {c d : Cursor} {e : ScanError} (hd : d.Reaches c)
    (h : Quoted.body d.offset c = .error e) : d.Holds e.loc := by
  generalize hstart : d.offset = start at h
  fun_induction Quoted.body start c with
  | case1 => cases h
  | case2 c _ hpiece =>
    cases h
    subst hstart
    exact holds_of_piece hd hpiece
  | case3 c _ _ hpiece _ hbody _ ih =>
    cases h
    exact ih (hd.trans (Quoted.precedes_of_piece hpiece).reaches) hbody
  | case4 => cases h

/-- So is the fault of a string. -/
theorem holds_of_quoted {kind : TokenKind} {c : Cursor} {rest : List Char} {e : ScanError}
    (hc : c.rest = '"' :: rest) (h : Scan.quoted kind c = .error e) : c.Holds e.loc := by
  unfold Scan.quoted Quoted.read at h
  have hquote : c.Reaches (c.after ['"'] c.rest.tail) := reaches_after (by simp [hc])
  cases hbody : Quoted.body c.offset (c.after ['"'] c.rest.tail) with
  | ok found =>
    rw [hbody] at h
    cases h
  | error e' =>
    rw [hbody] at h
    cases h
    exact holds_of_body hquote hbody

/-- So is the fault of a number. -/
theorem holds_of_numeral {c : Cursor} {e : ScanError} (h : Numeral.read c = .error e) :
    c.Holds e.loc := by
  unfold Numeral.read at h
  split at h
  · cases h
    exact holds_of_rest_eq _ _ (List.take_append_drop 1 _).symm rfl
  · rename_i literal rest hsplit
    obtain ⟨hrest, -⟩ := Literal.append_of_split? hsplit
    simp only at h
    split at h
    · -- a precision mark after the literal
      rename_i after
      cases h
      refine holds_of_rest_eq (literal ++ ['\u0060']) after (by simp [hrest]) ?_
      rw [byteLength_append, ← Nat.add_assoc]
      rfl
    · rename_i after
      split at h
      · cases h
      · -- an exponent mark after the literal
        cases h
        refine holds_of_rest_eq (literal ++ ['*', '^']) after (by simp [hrest]) ?_
        rw [byteLength_append, ← Nat.add_assoc]
        rfl
    · cases h

/-- So is a character that is no token. -/
theorem holds_of_mark {c : Cursor} {e : ScanError} (h : Mark.read c = .error e) :
    c.Holds e.loc := by
  unfold Mark.read at h
  split at h
  · cases h
  · split at h
    · cases h
    · cases h
      exact holds_of_rest_eq _ _ (List.take_append_drop 1 _).symm rfl

/-- So is the fault of a lexeme that is no file name. -/
theorem holds_of_plain {c : Cursor} {e : ScanError} (h : Scan.plain c = .error e) :
    c.Holds e.loc := by
  unfold Scan.plain at h
  split at h
  · cases h
  · -- the scanners that can fail; the others never do
    exact holds_of_quoted ‹_› h
  · cases h
  · cases h
  · cases h
  · exact holds_of_escaped h
  · split at h
    · exact holds_of_numeral h
    · split at h
      · cases h
      · exact holds_of_mark h

/-- So is the fault of any lexeme. -/
theorem holds_of_lexeme_error {expects : Bool} {c : Cursor} {e : ScanError}
    (h : Scan.lexeme expects c = .error e) : c.Holds e.loc := by
  unfold Scan.lexeme Scan.filename at h
  split at h
  · split at h
    · rename_i hquote
      obtain ⟨rest, hrest⟩ := List.head?_eq_some_iff.mp hquote
      exact holds_of_quoted hrest h
    · split at h
      · cases h
      · exact holds_of_plain h
  · exact holds_of_plain h

/-! ## Whole texts -/

/-- A lexeme moves over characters of the text. -/
theorem reaches_of_lexeme {expects : Bool} {c : Cursor} {found : Lexeme}
    (h : Scan.lexeme expects c = .ok found) : c.Reaches found.next := by
  by_cases hrest : c.rest = []
  · obtain ⟨offset, rest⟩ := c
    obtain rfl : rest = [] := hrest
    cases expects <;> cases h <;> exact .refl _
  · exact (Scan.precedes_of_lexeme hrest h).reaches

/-- The tokens of a text, and the fault that ends them, are located at stretches of the text. -/
theorem holds_of_tokensFrom (expects : Bool) (c : Cursor) :
    (∀ t ∈ (Scan.tokensFrom expects c).1, c.Holds t.loc) ∧
      ∀ e ∈ (Scan.tokensFrom expects c).2, c.Holds e.loc := by
  -- each lexeme takes a character, so the induction is on how many there are
  induction hn : c.rest.length using Nat.strongRecOn generalizing expects c with
  | _ n ih =>
    subst hn
    rw [Scan.tokensFrom]
    split
    · rename_i e hskip
      exact ⟨List.forall_mem_nil _, fun _ he => Option.some.inj he ▸ holds_of_skip hskip⟩
    · rename_i place hskip
      have hplace := Trivia.reaches_of_skip hskip
      split
      · rename_i e hlexeme
        have hfault := hplace.trans_holds (holds_of_lexeme_error hlexeme)
        exact ⟨List.forall_mem_nil _, fun _ he => Option.some.inj he ▸ hfault⟩
      · rename_i found hfound
        have htoken : c.Holds (found.token place).loc :=
          hplace.trans_holds (holds_of_reaches (reaches_of_lexeme hfound))
        split
        · exact ⟨fun t ht => List.mem_singleton.mp ht ▸ htoken,
            fun _ he => absurd he (Option.not_mem_none _)⟩
        · rename_i hrest
          have hnext := hplace.trans_precedes (Scan.precedes_of_lexeme hrest hfound)
          obtain ⟨htokens, hfault⟩ := ih _ hnext.length_lt found.kind.takesFilename found.next rfl
          refine ⟨fun t ht => ?_, fun e he => hnext.reaches.trans_holds (hfault e he)⟩
          rcases List.mem_cons.mp ht with rfl | ht
          · exact htoken
          · exact hnext.reaches.trans_holds (htokens t ht)

end Symbolic
