import Symbolic.Proofs.Continued.Marks
import Symbolic.Proofs.Layout.Trivia

/-!
# What an escape looks like from the left

A backslash and a character outside ASCII have in common that nothing but a name goes on with them:
no number, no reference, no operator of ASCII characters and no escape. So what is read before such
a character is the same whichever of them it is, and as at the end of the text.

## Key results

- `Opaque`: texts that only a name goes on with
- `skip_before`, `Escape.read_before`, `Reference.slot_before`, `Reference.out_before`,
  `Numeral.read_before`, `Mark.read_before`: what is read before such a text
-/

namespace Symbolic

open Scan (Avoids EndsLiteral)

/-- A backslash, or a character outside ASCII that is not blank. -/
def Foreign (c : Char) : Prop :=
  c = '\\' ∨ 127 < c.toNat ∧ Text.isBlank c = false

instance : DecidablePred Foreign :=
  fun c => inferInstanceAs (Decidable (c = '\\' ∨ 127 < c.toNat ∧ Text.isBlank c = false))

/-- A text that starts with such a character, or the end of the text. -/
def Opaque (tail : List Char) : Prop :=
  ∀ c ∈ tail.head?, Foreign c

section Classes

variable {c : Char} {tail : List Char}

/-- A foreign character is none of a list of others. -/
theorem Foreign.notMem (h : Foreign c) {chars : List Char} (hchars : ∀ d ∈ chars, ¬Foreign d) :
    c ∉ chars :=
  fun hmem => hchars c hmem h

/-- A foreign character is no other one. -/
theorem Foreign.ne (h : Foreign c) {d : Char} (hd : ¬Foreign d) : c ≠ d :=
  fun heq => hd (heq ▸ h)

/-- A foreign character is not blank. -/
theorem Foreign.isBlank (h : Foreign c) : Text.isBlank c = false := by
  rcases h with rfl | ⟨-, hblank⟩
  · decide
  · exact hblank

/-- A foreign character is neither a letter nor a digit of ASCII. -/
theorem Foreign.isAlphanum (h : Foreign c) : c.isAlphanum = false := by
  rcases h with rfl | ⟨hlt, -⟩
  · decide
  · refine Bool.eq_false_iff.mpr fun halphanum => ?_
    have hle := (Name.toNat_of_isAlphanum halphanum).1
    omega

/-- A foreign character is no digit. -/
theorem Foreign.isDigit (h : Foreign c) : c.isDigit = false :=
  (Bool.or_eq_false_iff.mp h.isAlphanum).2

/-- What is opaque goes on with none of the characters that are not foreign. -/
theorem Opaque.avoids (h : Opaque tail) {chars : List Char} (hchars : ∀ d ∈ chars, ¬Foreign d) :
    Avoids chars tail :=
  fun c hc => (h c hc).notMem hchars

/-- What is opaque starts with no character of a class that holds no foreign one. -/
theorem Opaque.any_eq_false (h : Opaque tail) {belongs : Char → Bool}
    (hbelongs : ∀ c, Foreign c → belongs c = false) : tail.head?.any belongs = false := by
  rw [Option.any_eq_false]
  exact fun c hc => hbelongs c (h c hc)

/-- Behind what is opaque no literal goes on. -/
theorem Opaque.endsLiteral (h : Opaque tail) : EndsLiteral tail :=
  ⟨h.any_eq_false fun _ => Foreign.isAlphanum, h.avoids (by decide)⟩

/-- An escape is opaque, whatever follows it. -/
theorem Escape.Spells.opaque_append {escape : List Char} (h : Escape.Spells escape c)
    (rest : List Char) : Opaque (escape ++ rest) := by
  cases h <;> · rintro _ ⟨⟩; exact .inl rfl

/-- A text before an opaque one that does not start with a character does not start with it there,
    or is empty. -/
theorem Opaque.append_ne_cons (h : Opaque tail) {first : Char} (hfirst : ¬Foreign first)
    {cs : List Char} (hcs : ∀ rest, cs ≠ first :: rest) (rest : List Char) :
    cs ++ tail ≠ first :: rest := by
  intro heq
  cases cs with
  | nil => exact hfirst (h first (by rw [show tail = first :: rest from heq]; rfl))
  | cons d cs => exact hcs cs (by rw [(List.cons.inj heq).1])

end Classes

/-! ## Outcomes -/

/-- Both outcomes are found, and what is found is related, or both are faults of the same kind. -/
inductive Outcome {α β : Type} (R : α → β → Prop) : Except ScanError α → Except ScanError β → Prop
  | found {a : α} {b : β} (related : R a b) : Outcome R (.ok a) (.ok b)
  | fault {e e' : ScanError} (same : e.fault = e'.fault) : Outcome R (.error e) (.error e')

namespace Outcome

variable {α β γ : Type} {R : α → β → Prop} {a : Except ScanError α} {b : Except ScanError β}

/-- A relation between two outcomes may be weakened. -/
theorem mono {S : α → β → Prop} (h : Outcome R a b) (himp : ∀ a b, R a b → S a b) :
    Outcome S a b := by
  cases h with
  | found related => exact .found (himp _ _ related)
  | fault same => exact .fault same

/-- Mapped outcomes are related as their values are. -/
theorem map {δ : Type} {S : γ → δ → Prop} {f : α → γ} {g : β → δ} (h : Outcome R a b)
    (himp : ∀ a b, R a b → S (f a) (g b)) : Outcome S (a.map f) (b.map g) := by
  cases h with
  | found related => exact .found (himp _ _ related)
  | fault same => exact .fault same

/-- Two outcomes that are each related to the same one. -/
theorem join {S : α → γ → Prop} {c : Except ScanError γ} (h : Outcome R a b)
    (h' : Outcome S a c) : Outcome (fun b c => ∃ a, R a b ∧ S a c) b c := by
  cases h with
  | found related =>
    cases h' with
    | found related' => exact .found ⟨_, related, related'⟩
  | fault same =>
    cases h' with
    | fault same' => exact .fault (same.symm.trans same')

end Outcome

/-- The second outcome finds the same lexeme in a text that goes on with the tail. -/
abbrev Extends (tail : List Char) : Except ScanError Lexeme → Except ScanError Lexeme → Prop :=
  Outcome fun found found' => found' = found.followedBy tail

/-! ## Blanks and comments -/

/-- Before an opaque text skipping ends where it ends before another one. -/
theorem Scan.skip_before {c place : Cursor} {u v : List Char} (hv : Opaque v)
    (h : Trivia.skip (c.followedBy u) = .ok (place.followedBy u)) :
    Trivia.skip (c.followedBy v) = .ok (place.followedBy v) := by
  refine (skip_append_eq h v).trans ?_
  obtain ⟨offset, cs⟩ := place
  -- nothing but `v` is left, or the first character is left, which opens neither a blank nor a
  -- comment
  cases cs with
  | nil =>
    cases v with
    | nil => exact skip_nil offset
    | cons d v =>
      have hd := hv d rfl
      exact skip_cons hd.isBlank (hd.ne (by decide)) offset v
  | cons first more =>
    obtain ⟨hblank, hcomment⟩ := not_open_of_skipFrom h rfl
    refine skip_of_not_open hblank (fun after hfirst => ?_) offset
    refine hv.append_ne_cons (by decide) (fun rest hmore => ?_) after
    exact hcomment (rest ++ u) hfirst (by rw [hmore]; rfl)

/-! ## Escapes -/

namespace Escape

variable {c : Cursor} {tail : List Char}

/-- What is a digit in some base is a letter or a digit of ASCII. -/
theorem isAlphanum_of_digitValue? {d : Char} {n : Nat} (h : Text.digitValue? d = some n) :
    d.isAlphanum = true := by
  unfold Text.digitValue? at h
  split at h
  · rename_i hdigit
    exact (Bool.or_eq_true _ _).mpr (.inr hdigit)
  · split at h
    · rename_i hlower
      exact (Bool.or_eq_true _ _).mpr (.inl ((Bool.or_eq_true _ _).mpr (.inr hlower)))
    · split at h
      · rename_i hupper
        exact (Bool.or_eq_true _ _).mpr (.inl ((Bool.or_eq_true _ _).mpr (.inl hupper)))
      · cases h

/-- The digits of a numeral in some base are letters and digits of ASCII. -/
theorem isAlphanum_of_digitsValue? {base n : Nat} {digits : List Char}
    (h : Text.digitsValue? base digits = some n) : ∀ d ∈ digits, d.isAlphanum = true := by
  unfold Text.digitsValue? at h
  generalize 0 = start at h
  induction digits generalizing start with
  | nil => exact fun _ hd => nomatch hd
  | cons d digits ih =>
    rw [List.foldlM_cons, Option.bind_eq_bind, Option.bind_eq_some_iff] at h
    obtain ⟨next, hnext, hrest⟩ := h
    rw [Option.bind_eq_some_iff] at hnext
    obtain ⟨value, hvalue, -⟩ := hnext
    exact List.forall_mem_cons.mpr ⟨isAlphanum_of_digitValue? hvalue, ih next hrest⟩

/-- The characters that an escape has after its backslash. -/
def Inner (d : Char) : Prop :=
  d.isAlphanum = true ∨ d ∈ ['[', ']', ':']

/-- No character within an escape is foreign. -/
theorem Inner.not_foreign {d : Char} (h : Inner d) : ¬Foreign d := by
  intro hforeign
  rcases h with halphanum | hmem
  · cases halphanum.symm.trans hforeign.isAlphanum
  · exact hforeign.notMem (by decide) hmem

/-- No character within an escape is a quote. -/
theorem Inner.ne_quote {d : Char} (h : Inner d) : d ≠ '"' := by
  rintro rfl
  exact absurd h (by unfold Inner; decide)

/-- A name in brackets stands within an escape. -/
theorem inner_of_isName {name : List Char} (h : isName name = true) :
    ∀ d ∈ '[' :: (name ++ [']']), Inner d := by
  have hname : ∀ d ∈ name, Inner d := fun d hd =>
    .inl (List.all_eq_true.mp (Bool.and_eq_true_iff.mp h).2 d hd)
  refine List.forall_mem_cons.mpr ⟨.inr (by decide), List.forall_mem_append.mpr ⟨hname, ?_⟩⟩
  exact List.forall_mem_singleton.mpr (.inr (by decide))

/-- An escape is a backslash with characters behind it that stand within escapes. -/
theorem Spells.exists_cons {escape : List Char} {char : Char} (h : Spells escape char) :
    ∃ inner, escape = '\\' :: inner ∧ ∀ d ∈ inner, Inner d := by
  cases h with
  | named isName => exact ⟨_, rfl, inner_of_isName isName⟩
  | hexadecimal code =>
    unfold ofHexadecimal? at code
    split at code
    · obtain ⟨n, hvalue, -⟩ := Option.bind_eq_some_iff.mp code
      exact ⟨_, rfl, List.forall_mem_cons.mpr ⟨.inr (by decide), fun d hd =>
        .inl (isAlphanum_of_digitsValue? hvalue d hd)⟩⟩
    · cases code

/-- So is an escape that names no character. -/
theorem Misspells.exists_cons {source : List Char} (h : Misspells source) :
    ∃ inner, source = '\\' :: inner ∧ ∀ d ∈ inner, Inner d := by
  obtain @⟨name, isName, -⟩ := h
  exact ⟨_, rfl, inner_of_isName isName⟩

/-- What stands before an opaque text reaches into it only if it is more than an escape. -/
theorem exists_append_before {source inner rest : List Char} (hne : c.rest ≠ [])
    (htail : Opaque tail) (hsource : source = '\\' :: inner) (hinner : ∀ d ∈ inner, Inner d)
    (heq : c.rest ++ tail = source ++ rest) : ∃ after, c.rest = source ++ after := by
  obtain ⟨first, cs, hcs⟩ := List.exists_cons_of_ne_nil hne
  rw [hcs, hsource] at heq
  obtain ⟨rfl, happend⟩ := List.cons.inj heq
  obtain ⟨after, rfl, -⟩ := Scan.exists_of_append_eq
    (htail.avoids fun d hd => (hinner d hd).not_foreign) happend
  exact ⟨after, by rw [hcs, hsource]; rfl⟩

/-- An escape does not reach into an opaque text. -/
theorem read_before (hne : c.rest ≠ []) (htail : Opaque tail) :
    Outcome (fun found found' => found' = { found with rest := found.rest ++ tail })
      (read c) (read (c.followedBy tail)) := by
  cases hread : read c with
  | ok found =>
    rw [read_followedBy hread tail]
    exact .found rfl
  | error e =>
    cases hmore : read (c.followedBy tail) with
    | ok found =>
      -- the escape that was read with the tail had no room for any of it, so it was there before
      obtain ⟨inner, hsource, hinner⟩ := (spells_of_read hmore).exists_cons
      obtain ⟨after, hafter⟩ := exists_append_before hne htail hsource hinner
        (source_append_rest_of_read hmore).1
      have hread' := (spells_of_read hmore).read_append c.offset after
      rw [← hafter] at hread'
      cases hread.symm.trans hread'
    | error e' =>
      refine .fault ?_
      -- a name that is complete is reported the same way, the others depend on the start only
      by_cases hfault : e.fault = .unknownNamedCharacter
      · obtain ⟨-, source, rest, hrest, hmisspells⟩ :=
          (fault_of_read hread).2.resolve_left (by simp [hfault])
        obtain ⟨e'', herror, hfault'⟩ := hmisspells.read_append c.offset (rest ++ tail)
        rw [← List.append_assoc, ← hrest] at herror
        rw [hfault, Except.error.inj (hmore.symm.trans herror), hfault']
      by_cases hfault' : e'.fault = .unknownNamedCharacter
      · obtain ⟨-, source, rest, hrest, hmisspells⟩ :=
          (fault_of_read hmore).2.resolve_left (by simp [hfault'])
        obtain ⟨inner, hsource, hinner⟩ := hmisspells.exists_cons
        obtain ⟨after, hafter⟩ := exists_append_before hne htail hsource hinner hrest
        obtain ⟨e'', herror, hfault''⟩ := hmisspells.read_append c.offset after
        rw [← hafter] at herror
        rw [hfault', Except.error.inj (hread.symm.trans herror), hfault'']
      · rw [(fault_of_read hread).2.resolve_right fun h => hfault h.1,
          (fault_of_read hmore).2.resolve_right fun h => hfault' h.1]

end Escape

/-- The character at a place is decoded the same before what is opaque. -/
theorem Glyph.at?_before {c : Cursor} {tail : List Char} (hne : c.rest ≠ []) (htail : Opaque tail) :
    at? (c.followedBy tail) =
      (at? c).map fun g => { g with next := g.next.followedBy tail } := by
  cases hat : at? c with
  | some g => exact at?_followedBy hat tail
  | none =>
    rw [Option.map_none]
    unfold at? at hat ⊢
    split at hat
    · exact absurd ‹_› hne
    · rename_i rest hrest
      have hmore : (c.followedBy tail).rest = '\\' :: (rest ++ tail) := by
        rw [Cursor.followedBy, hrest]
        rfl
      -- an escape is only skipped over when it is read, with and without the tail
      have hread := Escape.read_before hne htail
      generalize Escape.read c = read, Escape.read (c.followedBy tail) = read' at hread hat
      cases hread with
      | found => cases hat
      | fault => simp only [hmore]
    · cases hat

/-! ## Lexemes -/

section Lexemes

variable {c : Cursor} {rest tail : List Char}

/-- A run of characters ends before an opaque text. -/
theorem Lexeme.verbatim_before (kind : TokenKind) (c : Cursor) (before : List Char)
    {belongs : Char → Bool} (htail : tail.head?.any belongs = false) :
    verbatim kind (c.followedBy tail) (before ++ (rest ++ tail).takeWhile belongs)
        ((rest ++ tail).dropWhile belongs) =
      (verbatim kind c (before ++ rest.takeWhile belongs) (rest.dropWhile belongs)).followedBy
        tail := by
  rw [Scan.takeWhile_append_of_head htail, Scan.dropWhile_append_of_head htail]
  rfl

/-- A class without foreign characters holds the first character of a text, or not, whatever opaque
    text follows. -/
theorem Opaque.head?_any (h : Opaque tail) {belongs : Char → Bool}
    (hbelongs : ∀ c, Foreign c → belongs c = false) (cs : List Char) :
    (cs ++ tail).head?.any belongs = cs.head?.any belongs := by
  cases cs with
  | nil => exact h.any_eq_false hbelongs
  | cons => rfl

/-- No foreign character goes on with a name in a reference. -/
theorem Foreign.isNameCharacter {d : Char} (h : Foreign d) :
    Reference.isNameCharacter d = false := by
  have hdollar : d ≠ '$' := h.ne (by decide)
  simp [Reference.isNameCharacter, h.isAlphanum, hdollar]

/-- A slot is read the same before what is opaque. -/
theorem Reference.slot_before (hc : c.rest = '#' :: rest) (htail : Opaque tail) :
    slot (c.followedBy tail) = (slot c).followedBy tail := by
  obtain ⟨offset, cs⟩ := c
  obtain rfl : cs = '#' :: rest := hc
  by_cases hsequence : ∃ after, rest = '#' :: after
  · obtain ⟨after, rfl⟩ := hsequence
    exact Lexeme.verbatim_before .slotSequence ⟨offset, '#' :: '#' :: after⟩ ['#', '#']
      (htail.any_eq_false fun _ => Foreign.isDigit)
  · rw [not_exists] at hsequence
    -- whether digits or a name go on is seen from the first character
    have hcharacter : slotCharacter (rest ++ tail) = slotCharacter rest := by
      rw [slotCharacter, htail.head?_any fun _ => Foreign.isDigit, slotCharacter]
    have hbelongs : ∀ d, Foreign d → slotCharacter rest d = false := by
      intro d hd
      unfold slotCharacter
      split
      · exact hd.isDigit
      · exact hd.isNameCharacter
    have hslot := slot_of_not_sequence (htail.append_ne_cons (by decide) hsequence) offset
    rw [hcharacter] at hslot
    rw [slot_of_not_sequence hsequence]
    exact hslot.trans (Lexeme.verbatim_before .slot ⟨offset, '#' :: rest⟩ ['#']
      (htail.any_eq_false hbelongs))

/-- A reference to an output is read the same before what is opaque. -/
theorem Reference.out_before (hc : c.rest = '%' :: rest) (htail : Opaque tail) :
    out (c.followedBy tail) = (out c).followedBy tail := by
  obtain ⟨offset, cs⟩ := c
  obtain rfl : cs = '%' :: rest := hc
  have hpercent : ∀ cs : List Char, cs.head? = some '%' ↔ cs.head?.any (· == '%') = true := by
    intro cs
    cases cs <;> simp
  have hne : ∀ d, Foreign d → (d == '%') = false :=
    fun d hd => beq_eq_false_iff_ne.mpr (hd.ne (by decide))
  -- more percent signs or digits: seen from the first character as well
  have hcharacter : outCharacter (rest ++ tail) = outCharacter rest := by
    simp only [outCharacter, hpercent, htail.head?_any hne]
  have hbelongs : ∀ d, Foreign d → outCharacter rest d = false := by
    intro d hd
    unfold outCharacter
    split
    · exact hne d hd
    · exact hd.isDigit
  have hout : ∀ rest, out ⟨offset, '%' :: rest⟩ = .verbatim .out ⟨offset, '%' :: rest⟩
      (['%'] ++ rest.takeWhile (outCharacter rest)) (rest.dropWhile (outCharacter rest)) :=
    fun _ => rfl
  have hmore := hout (rest ++ tail)
  rw [hcharacter] at hmore
  exact hmore.trans (Lexeme.verbatim_before .out ⟨offset, '%' :: rest⟩ ['%']
    (htail.any_eq_false hbelongs))

/-- A number is read the same before what is opaque. -/
theorem Numeral.read_before (c : Cursor) (htail : Opaque tail) :
    Extends tail (read c) (read (c.followedBy tail)) := by
  have hmore : Literal.split? (c.followedBy tail).rest = _ :=
    Scan.split?_append htail.endsLiteral c.rest
  cases hsplit : Literal.split? c.rest with
  | none =>
    rw [hsplit] at hmore
    simp only [read, hsplit, hmore, Option.map_none]
    exact .fault rfl
  | some split =>
    obtain ⟨literal, rest⟩ := split
    rw [hsplit] at hmore
    -- what stands behind the literal decides: a second precision mark, an exponent or the end
    by_cases hmark : ∃ after, rest = '\u0060' :: after
    · obtain ⟨after, rfl⟩ := hmark
      have herror := read_of_mark
        (show Literal.split? _ = some (literal, '\u0060' :: (after ++ tail)) from hmore)
      rw [read_of_mark hsplit, herror]
      exact .fault rfl
    by_cases hexponent : ∃ after, rest = '*' :: '^' :: after
    · obtain ⟨after, rfl⟩ := hexponent
      have hread := read_of_exponent
        (show Literal.split? _ = some (literal, '*' :: '^' :: (after ++ tail)) from hmore)
      -- the tail starts with no digit and no sign
      have hcontinues : continuesExponent (after ++ tail) = continuesExponent after := by
        refine htail.head?_any (fun d hd => ?_) after
        have hplus : d ≠ '+' := hd.ne (by decide)
        have hminus : d ≠ '-' := hd.ne (by decide)
        simp [hd.isDigit, hplus, hminus]
      rw [read_of_exponent hsplit, hread, hcontinues]
      split
      · exact .found rfl
      · exact .fault rfl
    · rw [not_exists] at hmark hexponent
      rw [read_of_end hsplit hmark hexponent,
        read_of_end hmore (htail.append_ne_cons (by decide) hmark) ?_]
      · exact .found rfl
      · intro after heq
        cases rest with
        | nil => exact @Opaque.append_ne_cons tail htail '*' (by decide) [] (by simp) _ heq
        | cons first rest =>
          obtain ⟨rfl, happend⟩ := List.cons.inj heq
          exact htail.append_ne_cons (by decide)
            (fun after' hrest => hexponent after' (by rw [hrest])) after happend

/-- Whether a mark is spelled at the start of a text does not depend on opaque text behind it. -/
theorem Mark.spelled?_before {kind : TokenKind} (hkind : kind ∈ kinds) (cs : List Char)
    (htail : Opaque tail) : spelled? kind (cs ++ tail) = (spelled? kind cs).map (· ++ tail) := by
  have hforeign : ∀ kind ∈ kinds, ∀ d ∈ kind.spelling.toList, ¬Foreign d := by decide
  unfold spelled?
  cases hstrip : Text.strip? kind.spelling.toList cs with
  | some rest =>
    rw [Text.strip?_eq_some_iff.mpr (show cs ++ tail = _ ++ (rest ++ tail) by
      rw [Text.strip?_eq_some_iff.mp hstrip, List.append_assoc])]
    simp only [Option.filter_some, htail.head?_any fun _ => Foreign.isDigit]
    split <;> rfl
  | none =>
    cases hmore : Text.strip? kind.spelling.toList (cs ++ tail) with
    | none => rfl
    | some rest =>
      -- the spelling would reach into the tail
      obtain ⟨after, hafter, -⟩ := Scan.exists_of_append_eq (htail.avoids (hforeign kind hkind))
        (Text.strip?_eq_some_iff.mp hmore)
      cases hstrip.symm.trans (Text.strip?_eq_some_iff.mpr hafter)

/-- The longest mark of a text is the same before what is opaque. -/
theorem Mark.ascii?_before (cs : List Char) (htail : Opaque tail) :
    ascii? (cs ++ tail) = (ascii? cs).map fun found => (found.1, found.2 ++ tail) :=
  ascii?_append_of_spelled fun _ hkind => spelled?_before hkind cs htail

/-- A mark is read the same before what is opaque. -/
theorem Mark.read_before (hne : c.rest ≠ []) (htail : Opaque tail) :
    Extends tail (read c) (read (c.followedBy tail)) := by
  obtain ⟨offset, cs⟩ := c
  obtain ⟨first, rest, rfl⟩ := List.exists_cons_of_ne_nil hne
  have hmore : ascii? (first :: (rest ++ tail)) = _ := ascii?_before (first :: rest) htail
  cases hascii : ascii? (first :: rest) with
  | some found =>
    rw [hascii] at hmore
    simp only [read, Cursor.followedBy, List.cons_append, hascii, hmore, Option.map_some]
    exact .found rfl
  | none =>
    rw [hascii] at hmore
    -- no operator in ASCII: the character alone is one or none
    cases hoperator : Character.operator? first with
    | some kind =>
      simp only [read, Cursor.followedBy, hascii, hmore, Option.map_none, List.cons_append,
        List.head?_cons, Option.bind_some, hoperator]
      exact .found rfl
    | none =>
      simp only [read, Cursor.followedBy, hascii, hmore, Option.map_none, List.cons_append,
        List.head?_cons, Option.bind_some, hoperator]
      exact .fault rfl

end Lexemes

end Symbolic
