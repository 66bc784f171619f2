import Symbolic.Proofs.Escapes.Elsewhere

/-!
# Names and quoted text in another spelling

A text is compared with the one that has an escape in the place of a character. Names are read alike
in both: up to the character they are the same, and behind it the same text follows. Only a
backquote right before the character may mark a context in the one and nothing in the other, for it
looks at the character after it, and does not read an escape.

## Key results

- `Respells`: an escape of a character that means something outside of strings
- `Name.readFrom_respelled`, `Placeholder.read_respelled`, `Scan.symbol_respelled`: names, symbols
  and blanks
- `Quoted.body_respelled`: quoted text that ends before the character, or is at fault
-/

namespace Symbolic

open Character

/-- An escape of a character outside ASCII that belongs to names or is an operator. -/
structure Respells (char : Char) (escape : List Char) : Prop where
  outside : 127 < char.toNat
  meaning : continuesName char = true ∨ (operator? char).isSome = true
  spells : Escape.Spells escape char

/-- Both are places before the character or its escape, or both are places behind it. -/
inductive Aligned (char : Char) (escape post : List Char) : Cursor → Cursor → Prop
  | before (place : Cursor) :
      Aligned char escape post (place.followedBy (char :: post)) (place.followedBy (escape ++ post))
  | behind {c d : Cursor} (rest : c.rest = d.rest) (passed : c.rest.length ≤ post.length) :
      Aligned char escape post c d

/-- A place with a backquote that marks a context before the character, but not before the
    escape. -/
inductive Mistaken (char : Char) (escape post : List Char) : Cursor → Prop
  | intro {place : Cursor} (mark : place.rest = ['\u0060']) (starts : startsName char = true) :
      Mistaken char escape post (place.followedBy (escape ++ post))

/-- The same characters are read from both texts, up to places that correspond. -/
structure Agree (char : Char) (escape post : List Char) (read read' : List Char × Cursor) :
    Prop where
  text : read.1 = read'.1
  next : Aligned char escape post read.2 read'.2

/-- The same lexeme from both texts, or the operator that the character is. -/
structure Lexeme.Respelled (char : Char) (escape post : List Char) (found found' : Lexeme) :
    Prop where
  kind : found.kind = found'.kind
  text : found.text = found'.text ∨
    operator? char = some found.kind ∧ found.text = [char] ∧ found'.text = escape
  next : Aligned char escape post found.next found'.next

variable {char : Char} {escape post : List Char}

/-! ## The character and its escape -/

namespace Respells

/-- A blank does not go on with a name. -/
theorem continuesName_blanks : ∀ c ∈ Text.blanks, continuesName c = false := by
  have hall : Text.blanks.any continuesName = false := by
    decide +kernel
  simpa using hall

/-- No blank is an operator. -/
theorem operator?_blanks : ∀ c ∈ Text.blanks, operator? c = none := by
  decide +kernel

/-- A character that has an escape is not blank. -/
theorem isBlank (h : Respells char escape) : Text.isBlank char = false := by
  rw [Text.isBlank, List.contains_eq_mem, decide_eq_false_iff_not]
  intro hmem
  rcases h.meaning with hcontinues | hoperator
  · cases hcontinues.symm.trans (continuesName_blanks char hmem)
  · rw [operator?_blanks char hmem] at hoperator
    cases hoperator

/-- A character that has an escape is foreign. -/
theorem foreign (h : Respells char escape) : Foreign char :=
  .inr ⟨h.outside, h.isBlank⟩

/-- The character is opaque, whatever follows it. -/
theorem opaque_char (h : Respells char escape) (post : List Char) : Opaque (char :: post) := by
  rintro _ ⟨⟩
  exact h.foreign

/-- So is its escape. -/
theorem opaque_escape (h : Respells char escape) (post : List Char) : Opaque (escape ++ post) :=
  h.spells.opaque_append post

/-- The character is none of ASCII. -/
theorem ne (h : Respells char escape) {d : Char} (hd : d.toNat ≤ 127) : char ≠ d := by
  rintro rfl
  exact absurd h.outside (Nat.not_lt.mpr hd)

end Respells

/-- Lexemes that are alike, and behind which no more than the common rest is left, are respelled. -/
theorem Lexeme.Alike.respelled {found found' : Lexeme} (h : found.Alike found')
    (hpassed : found.next.rest.length ≤ post.length) : found.Respelled char escape post found' :=
  ⟨h.kind, .inl h.text, .behind h.rest hpassed⟩

/-! ## Names -/

namespace Glyph

variable {g : Glyph} {first : Bool}

/-- A backquote that marks a context does so when the text goes on. -/
theorem marksContext_followedBy (h : g.marksContext = true) (more : List Char) :
    marksContext { g with next := g.next.followedBy more } = true := by
  unfold marksContext at h ⊢
  rw [Bool.and_eq_true] at h ⊢
  refine ⟨h.1, ?_⟩
  have hne : g.next.rest ≠ [] := by
    intro hnil
    simp [hnil] at h
  exact (congrArg (Option.any startsName) (List.head?_append_of_ne_nil _ hne)).trans h.2

/-- What belongs to a name belongs to it when the text goes on. -/
theorem belongs_followedBy_of_belongs (h : g.belongs first = true) (more : List Char) :
    belongs { g with next := g.next.followedBy more } first = true := by
  unfold belongs at h ⊢
  rw [Bool.or_eq_true] at h ⊢
  exact h.imp_left fun hmark => marksContext_followedBy hmark more

/-- No name starts with a backslash. -/
theorem startsName_backslash : startsName '\\' = false :=
  Scan.startsName_otherStarts '\\' (by decide)

/-- A context mark does not count before an escape. -/
theorem belongs_escape (h : Respells char escape) (post : List Char) (first : Bool) :
    belongs { g with next := g.next.followedBy (escape ++ post) } first = g.belongs first := by
  have hhead : (g.next.rest ++ (escape ++ post)).head?.any startsName =
      g.next.rest.head?.any startsName := by
    cases g.next.rest with
    | cons => rfl
    | nil =>
      obtain ⟨inner, rfl, -⟩ := h.spells.exists_cons
      exact startsName_backslash
  simp only [belongs, marksContext, Cursor.followedBy, hhead]

/-- A character that belongs to a name only before the character that is respelled is a backquote
    that marks a context. -/
theorem marks_of_belongs (hnot : g.belongs first = false)
    (h : belongs { g with next := g.next.followedBy (char :: post) } first = true) :
    g.escaped = false ∧ g.char = '\u0060' ∧ g.next.rest = [] ∧ startsName char = true := by
  unfold belongs at hnot h
  obtain ⟨hmark, hclass⟩ := Bool.or_eq_false_iff.mp hnot
  have hmark' := (Bool.or_eq_true _ _).mp h |>.resolve_right (by simpa using hclass)
  simp only [marksContext, Bool.and_eq_true, Bool.not_eq_true', beq_iff_eq] at hmark'
  obtain ⟨⟨hescaped, hchar⟩, hnext⟩ := hmark'
  -- a mark of a context before the character only: nothing stands between
  by_cases hnil : g.next.rest = []
  · refine ⟨hescaped, hchar, hnil, ?_⟩
    rw [Cursor.followedBy, hnil] at hnext
    exact hnext
  · rw [Cursor.followedBy, List.head?_append_of_ne_nil _ hnil] at hnext
    rw [marksContext, hescaped, hchar, hnext] at hmark
    cases hmark

/-- Whether the next character belongs to a name depends on the character and on what follows it. -/
theorem any_followedBy {c : Cursor} (hat : at? c = some g) (tail : List Char) (first : Bool) :
    (at? (c.followedBy tail)).any (·.belongs first) =
      belongs { g with next := g.next.followedBy tail } first := by
  rw [at?_followedBy hat]
  rfl

/-- Before the escape the same characters belong to names as before the end of the text. -/
theorem any_escape (h : Respells char escape) (post : List Char) {c : Cursor} (hne : c.rest ≠ [])
    (first : Bool) : (at? (c.followedBy (escape ++ post))).any (·.belongs first) =
      (at? c).any (·.belongs first) := by
  cases hat : at? c with
  | none => rw [at?_before hne (h.opaque_escape post), hat, Option.map_none]
  | some g => rw [any_followedBy hat, belongs_escape h, Option.any_some]

/-- So they do before the character, but for a context mark. -/
theorem any_char (h : Respells char escape) (post : List Char) {c : Cursor} (hne : c.rest ≠ [])
    (first : Bool) :
    (at? (c.followedBy (char :: post))).any (·.belongs first) = (at? c).any (·.belongs first) ∨
      Mistaken char escape post (c.followedBy (escape ++ post)) := by
  cases hat : at? c with
  | none =>
    rw [at?_before hne (h.opaque_char post), hat, Option.map_none]
    exact .inl rfl
  | some g =>
    rw [any_followedBy hat, Option.any_some]
    cases hbelongs : g.belongs first with
    | true => exact .inl (belongs_followedBy_of_belongs hbelongs _)
    | false =>
      cases hchar : belongs { g with next := g.next.followedBy (char :: post) } first with
      | false => exact .inl rfl
      | true =>
        -- a backquote that marks a context before the plain character only
        obtain ⟨hescaped, hmark, hnil, hstarts⟩ := marks_of_belongs hbelongs hchar
        rcases passes_of_at? hat with ⟨-, hrest, -⟩ | ⟨hescaped', -⟩
        · refine .inr (.intro ?_ hstarts)
          rw [hrest, hmark, hnil]
          rfl
        · cases hescaped.symm.trans hescaped'

end Glyph

namespace Name

/-- A name goes on, or ends, at the character as it does at its escape. -/
theorem readFrom_char (h : Respells char escape) (post : List Char) (first : Bool) {c : Cursor}
    (hnil : c.rest = []) :
    Agree char escape post (readFrom first (c.followedBy (char :: post)))
      (readFrom first (c.followedBy (escape ++ post))) := by
  obtain ⟨offset, cs⟩ := c
  obtain rfl : cs = [] := hnil
  have hat : Glyph.at? (Cursor.followedBy ⟨offset, []⟩ (char :: post)) = _ :=
    Glyph.at?_cons (h.ne (by decide)) offset post
  have hat' : Glyph.at? (Cursor.followedBy ⟨offset, []⟩ (escape ++ post)) = _ :=
    Glyph.at?_of_spells h.spells offset post
  have hmark : (char == '\u0060') = false := beq_eq_false_iff_ne.mpr (h.ne (by decide))
  -- the character belongs to a name in both spellings or in neither
  have hsame : (Glyph.mk char true ⟨offset + Text.byteLength escape, post⟩).belongs first =
      (Glyph.mk char false ⟨offset + char.utf8Size, post⟩).belongs first := by
    simp only [Glyph.belongs, Glyph.marksContext, hmark]
    rfl
  by_cases hbelongs : (Glyph.mk char false ⟨offset + char.utf8Size, post⟩).belongs first = true
  · obtain ⟨hname, hrest⟩ := readFrom_elsewhere false
      (c := ⟨offset + char.utf8Size, post⟩) (d := ⟨offset + Text.byteLength escape, post⟩) rfl
    rw [readFrom_of_belongs hat hbelongs, readFrom_of_belongs hat' (hsame.trans hbelongs)]
    exact ⟨congrArg (char :: ·) hname.symm,
      .behind hrest.symm (reaches_readFrom false ⟨offset + char.utf8Size, post⟩).length_le⟩
  · rw [Bool.not_eq_true] at hbelongs
    rw [readFrom_of_not_any (by rw [hat]; exact hbelongs),
      readFrom_of_not_any (by rw [hat']; exact hsame.trans hbelongs)]
    exact ⟨rfl, .before ⟨offset, []⟩⟩

/-- Where nothing is read at the end of a text, nothing is read before the escape. -/
theorem respelled_of_not_any (h : Respells char escape) (post : List Char) {first : Bool}
    {c : Cursor} (hne : c.rest ≠ []) (hnone : (Glyph.at? c).any (·.belongs first) = false) :
    Agree char escape post (readFrom first (c.followedBy (char :: post)))
        (readFrom first (c.followedBy (escape ++ post))) ∨
      Mistaken char escape post (readFrom first (c.followedBy (escape ++ post))).2 := by
  rw [readFrom_of_not_any ((Glyph.any_escape h post hne first).trans hnone)]
  refine (Glyph.any_char h post hne first).imp_left fun hchar => ?_
  rw [readFrom_of_not_any (hchar.trans hnone)]
  exact ⟨rfl, .before c⟩

/-- A name is read alike before both spellings, or is mistaken to end at a backquote. -/
theorem readFrom_respelled (h : Respells char escape) (post : List Char) (first : Bool)
    (c : Cursor) :
    Agree char escape post (readFrom first (c.followedBy (char :: post)))
        (readFrom first (c.followedBy (escape ++ post))) ∨
      Mistaken char escape post (readFrom first (c.followedBy (escape ++ post))).2 := by
  -- along the name as far as it stands before the character
  fun_induction readFrom first c with
  | case1 first c hat =>
    by_cases hnil : c.rest = []
    · exact .inl (readFrom_char h post first hnil)
    · exact respelled_of_not_any h post hnil (by rw [hat]; rfl)
  | case2 first c g hat hbelongs name next hread ih =>
    have hmore : ∀ tail, readFrom first (c.followedBy tail) =
        (g.char :: (readFrom false (g.next.followedBy tail)).1,
          (readFrom false (g.next.followedBy tail)).2) := fun tail =>
      readFrom_of_belongs (Glyph.at?_followedBy hat tail)
        (Glyph.belongs_followedBy_of_belongs hbelongs tail)
    rw [hmore, hmore]
    exact ih.imp_left fun hagree => ⟨congrArg (g.char :: ·) hagree.text, hagree.next⟩
  | case3 first c g hat hbelongs =>
    refine respelled_of_not_any h post (fun hnil => ?_) (by simpa [hat] using hbelongs)
    cases hat.symm.trans (show Glyph.at? c = none by simp [Glyph.at?, hnil])

/-- A name starts before both spellings, or the start is mistaken at a backquote. -/
theorem startsAt_respelled (h : Respells char escape) (post : List Char) {c : Cursor}
    (hne : c.rest ≠ []) :
    startsAt (c.followedBy (char :: post)) = startsAt (c.followedBy (escape ++ post)) ∨
      Mistaken char escape post (c.followedBy (escape ++ post)) :=
  (Glyph.any_char h post hne true).imp_left fun hchar =>
    hchar.trans (Glyph.any_escape h post hne true).symm

end Name

/-! ## Blanks of patterns -/

namespace Placeholder

/-- The underscores of a blank are the same before what is opaque. -/
theorem marks_before {cs tail : List Char} (hunderscore : cs.head? = some '_')
    (htail : Opaque tail) : marks (cs ++ tail) = ((marks cs).1, (marks cs).2 ++ tail) := by
  by_cases hend : (marks cs).2 = []
  · -- nothing but marks stands before the tail, and that goes on with none
    obtain ⟨rest, rfl⟩ := List.head?_eq_some_iff.mp hunderscore
    have hcs := append_marks ('_' :: rest)
    have hends : EndsMarks tail := fun c hc =>
      ⟨(htail c hc).ne (by decide), (htail c hc).ne (by decide), (htail c hc).isDigit⟩
    rw [hend, List.append_nil] at hcs
    rw [hend, List.nil_append, ← marks_append (marks_mem_allMarks rest) hends, hcs]
  · exact marks_append_of_ne_nil hend tail

/-- Underscores, and the head after them, are read alike. -/
theorem read_respelled (h : Respells char escape) (post : List Char) (name : List Char)
    {c : Cursor} (hunderscore : c.rest.head? = some '_') :
    (read name (c.followedBy (char :: post))).Respelled char escape post
        (read name (c.followedBy (escape ++ post))) ∨
      Mistaken char escape post (read name (c.followedBy (escape ++ post))).next := by
  have hmarks : ∀ {tail : List Char}, Opaque tail →
      marks (c.followedBy tail).rest = ((marks c.rest).1, (marks c.rest).2 ++ tail) :=
    fun htail => marks_before hunderscore htail
  have hchar := hmarks (h.opaque_char post)
  have hescape := hmarks (h.opaque_escape post)
  -- an optional blank is complete, any other may have a head
  by_cases hoptional : (marks c.rest).1 = ['_', '.']
  · rw [read_of_optional (by rw [hchar]; exact hoptional),
      read_of_optional (by rw [hescape]; exact hoptional), hchar, hescape]
    exact .inl ⟨rfl, .inl rfl, .before (c.after ['_', '.'] (marks c.rest).2)⟩
  · rw [read_of_not_optional (by rw [hchar]; exact hoptional),
      read_of_not_optional (by rw [hescape]; exact hoptional), hchar, hescape]
    refine (Name.readFrom_respelled h post true
      (c.after (marks c.rest).1 (marks c.rest).2)).imp_left fun hagree => ?_
    exact ⟨rfl, .inl (congrArg (name ++ (marks c.rest).1 ++ ·) hagree.text), hagree.next⟩

end Placeholder

/-- An opaque text does not start with an underscore. -/
theorem Opaque.head?_eq_underscore {tail : List Char} (htail : Opaque tail) (cs : List Char) :
    (cs ++ tail).head? = some '_' ↔ cs.head? = some '_' := by
  cases cs with
  | cons => rfl
  | nil => exact ⟨fun hunderscore => absurd (htail '_' hunderscore) (by decide), nofun⟩

namespace Scan

/-- No file name is expected behind a symbol. -/
theorem takesFilename_symbol (c : Cursor) : (symbol c).kind.takesFilename = false := by
  unfold symbol
  dsimp only
  split
  · rw [kind_placeholder]
    rfl
  · rfl

/-- Names, and the blanks after them, are read alike. -/
theorem symbol_respelled (h : Respells char escape) (post : List Char) (c : Cursor) :
    (symbol (c.followedBy (char :: post))).Respelled char escape post
        (symbol (c.followedBy (escape ++ post))) ∨
      Mistaken char escape post (symbol (c.followedBy (escape ++ post))).next := by
  have hname := Name.readFrom_respelled h post true c
  unfold symbol Name.read
  generalize Name.readFrom true (c.followedBy (char :: post)) = read,
    Name.readFrom true (c.followedBy (escape ++ post)) = read' at hname
  obtain ⟨name, next⟩ := read
  obtain ⟨name', next'⟩ := read'
  dsimp only
  rcases hname with ⟨hname, haligned⟩ | hmistaken
  · dsimp only at hname haligned
    subst hname
    cases haligned with
    | before place =>
      -- the name ends before the character, where a blank may follow it
      have hchar := (h.opaque_char post).head?_eq_underscore place.rest
      have hescape := (h.opaque_escape post).head?_eq_underscore place.rest
      simp only [Cursor.followedBy] at hchar hescape ⊢
      simp only [hchar, hescape]
      split
      · exact Placeholder.read_respelled h post name ‹_›
      · exact .inl ⟨rfl, .inl rfl, .before place⟩
    | behind hrest hpassed =>
      -- the name goes on over the character and ends in the common rest
      rw [← hrest]
      split
      · rename_i hunderscore
        obtain ⟨rest, hnext⟩ := List.head?_eq_some_iff.mp hunderscore
        refine .inl ((Placeholder.read_elsewhere name hrest).respelled ?_)
        exact Nat.le_trans (Placeholder.precedes_read hnext).reaches.length_le hpassed
      · exact .inl ⟨rfl, .inl rfl, .behind hrest hpassed⟩
  · -- the name ends at the backquote
    dsimp only at hmistaken
    cases hmistaken with
    | @intro place mark starts =>
      have hhead : (place.followedBy (escape ++ post)).rest.head? ≠ some '_' := by
        rw [Cursor.followedBy, mark]
        exact of_decide_eq_false rfl
      rw [if_neg hhead]
      exact .inr (.intro mark starts)

end Scan

/-! ## Quoted text -/

namespace Quoted

/-- One piece of quoted text, or a faulty escape in it, does not reach into an opaque text. -/
theorem piece_before (start : Nat) {c : Cursor} {tail : List Char} (hne : c.rest ≠ [])
    (hbackslash : c.rest ≠ ['\\']) (htail : Opaque tail) :
    Outcome (fun found found' => found' = (found.1, found.2.followedBy tail))
      (piece start c) (piece start (c.followedBy tail)) := by
  obtain ⟨offset, cs⟩ := c
  obtain ⟨first, rest, rfl⟩ := List.exists_cons_of_ne_nil hne
  by_cases hfirst : first = '\\'
  · subst hfirst
    have hrest : rest ≠ [] := fun hnil => hbackslash (congrArg (List.cons '\\') hnil)
    -- the backslash has a character behind it that decides what it starts
    obtain ⟨mark, rest, rfl⟩ := List.exists_cons_of_ne_nil hrest
    have hread := Escape.read_before (c := ⟨offset, '\\' :: mark :: rest⟩)
      (List.cons_ne_nil _ _) htail
    simp only [piece, Cursor.followedBy, List.cons_append] at hread ⊢
    split
    · generalize Escape.read ⟨offset, '\\' :: mark :: rest⟩ = read,
        Escape.read ⟨offset, '\\' :: mark :: (rest ++ tail)⟩ = read' at hread
      cases hread with
      | found related =>
        subst related
        exact .found rfl
      | fault same => exact .fault same
    · exact .found rfl
  · rw [Scan.piece_cons hfirst, Cursor.followedBy, List.cons_append, Scan.piece_cons hfirst]
    exact .found rfl

/-- An escape is a piece of a string that stands for its character. -/
theorem piece_of_spells (h : Escape.Spells escape char) (start offset : Nat) (post : List Char) :
    piece start ⟨offset, escape ++ post⟩ =
      .ok ([char], ⟨offset + Text.byteLength escape, post⟩) := by
  have hread := h.read_append offset post
  cases h <;>
  · simp only [piece, List.cons_append] at hread ⊢
    rw [hread]
    rfl

/-- Any other pair of a backslash and a mark is one as well. -/
theorem piece_backslash {mark : Char} (hmark : mark ≠ '[' ∧ mark ≠ ':') (start offset : Nat)
    (rest : List Char) : piece start ⟨offset, '\\' :: mark :: rest⟩ =
      .ok (afterBackslash mark, ⟨offset + Text.byteLength ['\\', mark], rest⟩) := by
  simp [piece, hmark, Cursor.after]

/-- Characters that are neither quotes nor backslashes stand for themselves. -/
theorem body_plain {cs : List Char} (hcs : ∀ d ∈ cs, d ≠ '"' ∧ d ≠ '\\') (start offset : Nat)
    (post : List Char) : body start ⟨offset, cs ++ post⟩ =
      (body start ⟨offset + Text.byteLength cs, post⟩).map fun found =>
        (cs ++ found.1, found.2) := by
  induction cs generalizing offset with
  | nil => cases hbody : body start ⟨offset, post⟩ <;> simp [hbody, Text.byteLength, Except.map]
  | cons d cs ih =>
    obtain ⟨hd, hcs⟩ := List.forall_mem_cons.mp hcs
    rw [List.cons_append, Scan.body_of_piece (fun tail heq => hd.1 (List.cons.inj heq).1)
      (Scan.piece_cons hd.2 start offset (cs ++ post)), ih hcs]
    rw [Text.byteLength_cons, Nat.add_assoc]
    cases body start ⟨offset + (d.utf8Size + Text.byteLength cs), post⟩ <;> rfl

/-- The text behind the character is read no further than to a fault, which is the same behind the
    escape. -/
theorem fault_of_body_behind {start offset offset' : Nat} {text text' : List Char}
    (hends : ∀ found next,
      (body start ⟨offset, post⟩).map (fun found => (text ++ found.1, found.2)) =
        .ok (found, next) → post.length < next.rest.length) :
    Outcome (Agree char escape post)
      ((body start ⟨offset, post⟩).map fun found => (text ++ found.1, found.2))
      ((body start ⟨offset', post⟩).map fun found => (text' ++ found.1, found.2)) := by
  have hbody := body_elsewhere (c := ⟨offset, post⟩) (d := ⟨offset', post⟩) start start rfl
  generalize hread : body start ⟨offset, post⟩ = read, body start ⟨offset', post⟩ = read' at *
  cases hbody with
  | fault same => exact .fault same
  | found => exact absurd (hends _ _ rfl) (Nat.lt_asymm (precedes_of_body hread).length_lt)

/-- The rest of a string that starts with the character. -/
theorem body_char (h : Respells char escape) (start : Nat) {c : Cursor} (hnil : c.rest = [])
    (hends : ∀ text next, body start (c.followedBy (char :: post)) = .ok (text, next) →
      post.length < next.rest.length) :
    Outcome (Agree char escape post) (body start (c.followedBy (char :: post)))
      (body start (c.followedBy (escape ++ post))) := by
  obtain ⟨offset, cs⟩ := c
  obtain rfl : cs = [] := hnil
  have hquote : char ≠ '"' := h.ne (by decide)
  -- neither the character nor its escape closes the string
  have hquote' : ∀ rest, escape ++ post ≠ '"' :: rest := by
    obtain ⟨inner, rfl, -⟩ := h.spells.exists_cons
    exact fun rest heq => absurd (List.cons.inj heq).1 (by decide)
  have hchar : body start (Cursor.followedBy ⟨offset, []⟩ (char :: post)) = _ :=
    Scan.body_of_piece (fun tail heq => hquote (List.cons.inj heq).1)
      (Scan.piece_cons (h.ne (by decide)) start offset post)
  have hescape : body start (Cursor.followedBy ⟨offset, []⟩ (escape ++ post)) = _ :=
    Scan.body_of_piece hquote' (piece_of_spells h.spells start offset post)
  rw [hchar] at hends
  rw [hchar, hescape]
  exact fault_of_body_behind hends

/-- A backslash takes the character, but of the escape it only takes the backslash. -/
theorem body_backslash (h : Respells char escape) (start : Nat) {c : Cursor}
    (hbackslash : c.rest = ['\\'])
    (hends : ∀ text next, body start (c.followedBy (char :: post)) = .ok (text, next) →
      post.length < next.rest.length) :
    Outcome (Agree char escape post) (body start (c.followedBy (char :: post)))
      (body start (c.followedBy (escape ++ post))) := by
  obtain ⟨offset, cs⟩ := c
  obtain rfl : cs = ['\\'] := hbackslash
  have hquote : ∀ more rest, (Cursor.followedBy ⟨offset, ['\\']⟩ more).rest ≠ '"' :: rest :=
    fun more rest heq => absurd (List.cons.inj heq).1 (by decide)
  -- a backslash and the plain character are a pair
  have hchar : body start (Cursor.followedBy ⟨offset, ['\\']⟩ (char :: post)) = _ :=
    Scan.body_of_piece (hquote _)
      (piece_backslash ⟨h.ne (by decide), h.ne (by decide)⟩ start offset post)
  obtain ⟨inner, rfl, hinner⟩ := h.spells.exists_cons
  -- the backslash and that of the escape are a pair, and the rest of the escape is plain text
  have hplain : ∀ d ∈ inner, d ≠ '"' ∧ d ≠ '\\' := fun d hd =>
    ⟨(hinner d hd).ne_quote, fun heq => (hinner d hd).not_foreign (.inl heq)⟩
  have hescape : body start (Cursor.followedBy ⟨offset, ['\\']⟩ ('\\' :: inner ++ post)) =
      (body start ⟨offset + Text.byteLength ['\\', '\\'] + Text.byteLength inner, post⟩).map
        fun found => ('\\' :: inner ++ found.1, found.2) := by
    refine (Scan.body_of_piece (hquote _) (piece_backslash
      (show '\\' ≠ '[' ∧ '\\' ≠ ':' by decide) start offset (inner ++ post))).trans ?_
    rw [body_plain hplain]
    cases body start _ <;> rfl
  rw [hchar] at hends
  rw [hchar, hescape]
  exact fault_of_body_behind hends

/-- Quoted text that ends before the character is read alike, and text that is not closed or at
    fault has the same fault. -/
theorem body_respelled (h : Respells char escape) (start : Nat) {c : Cursor}
    (hends : ∀ text next, body start (c.followedBy (char :: post)) = .ok (text, next) →
      post.length < next.rest.length) :
    Outcome (Agree char escape post) (body start (c.followedBy (char :: post)))
      (body start (c.followedBy (escape ++ post))) := by
  -- induction on what is left before the character: one piece of the string, and the rest behind it
  induction hn : c.rest.length using Nat.strongRecOn generalizing c with
  | ind n ih =>
    subst hn
    by_cases hnil : c.rest = []
    · exact body_char h start hnil hends
    by_cases hbackslash : c.rest = ['\\']
    · exact body_backslash h start hbackslash hends
    by_cases hquote : ∃ rest, c.rest = '"' :: rest
    · obtain ⟨rest, hquote⟩ := hquote
      simp only [Cursor.followedBy, hquote, List.cons_append, body]
      exact .found ⟨rfl, .before (c.after ['"'] rest)⟩
    rw [not_exists] at hquote
    have hquote' : ∀ more rest, (c.followedBy more).rest ≠ '"' :: rest :=
      Literal.append_ne_cons hnil hquote
    -- the next piece ends before the character, so that it is the same in both texts
    have hpiece := (piece_before start hnil hbackslash (h.opaque_char post)).join
      (piece_before start hnil hbackslash (h.opaque_escape post))
    generalize hchar : piece start (c.followedBy (char :: post)) = read,
      hescape : piece start (c.followedBy (escape ++ post)) = read' at hpiece
    cases hpiece with
    | fault same =>
      rw [body_of_piece_error (hquote' _) hchar, body_of_piece_error (hquote' _) hescape]
      exact .fault same
    | found related =>
      obtain ⟨⟨text, next⟩, rfl, rfl⟩ := related
      have hlt : next.rest.length < c.rest.length := by
        have hlt := (precedes_of_piece hchar).length_lt
        simpa [Cursor.followedBy] using hlt
      rw [Scan.body_of_piece (hquote' _) hchar] at hends
      rw [Scan.body_of_piece (hquote' _) hchar, Scan.body_of_piece (hquote' _) hescape]
      have hbody := ih _ hlt (c := next) (fun more after hnext =>
        hends (text ++ more) after (by rw [hnext]; rfl)) rfl
      exact hbody.map fun _ _ agree => ⟨congrArg (text ++ ·) agree.text, agree.next⟩

end Quoted

end Symbolic
