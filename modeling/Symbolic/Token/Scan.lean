import Symbolic.Token.Mark
import Symbolic.Token.Numeral
import Symbolic.Token.Placeholder
import Symbolic.Token.Quoted
import Symbolic.Token.Reference
import Symbolic.Token.Trivia

/-! # Scanning a text into tokens

Between tokens stand blanks and comments. The first characters of a token decide what it is.
After the operators that name a file, a file name is tried first. Scanning stops at the end of
the text or at the first fault, and every token before that is kept.

* `Scan.precedes_of_lexeme`  every lexeme but the end of the input takes a character -/

namespace Symbolic

namespace Scan

/-! ## One lexeme -/

/-- Reads the symbol at a place, or the blank whose name it is. -/
def symbol (c : Cursor) : Lexeme :=
  let (name, next) := Name.read c
  if next.rest.head? = some '_' then Placeholder.read name next else ⟨.symbol, name, next⟩

/-- Reads what starts with an escape: a name, or an operator. -/
def escaped (c : Cursor) : Except ScanError Lexeme :=
  match Escape.read c with
  | .error e => .error e
  | .ok escape =>
    if Name.startsAt c then .ok (symbol c)
    else match Character.operator? escape.char with
      | some kind => .ok (.verbatim kind c escape.source escape.rest)
      | none => .error (.between c.offset (escape.next c).offset .unrecognizedToken)

/-- Reads quoted text as a token of some kind. -/
def quoted (kind : TokenKind) (c : Cursor) : Except ScanError Lexeme :=
  (Quoted.read c).map fun (text, next) => ⟨kind, text, next⟩

/-- Whether a text starts with a digit, or with a point and a digit. -/
def startsNumeral : List Char → Bool
  | '.' :: rest => rest.head?.any Char.isDigit
  | cs => cs.head?.any Char.isDigit

/-- Reads the lexeme at a place between tokens. -/
def plain (c : Cursor) : Except ScanError Lexeme :=
  match c.rest with
  | [] => .ok ⟨.endOfInput, [], c⟩
  | '"' :: _ => quoted .string c
  | '#' :: _ => .ok (Reference.slot c)
  | '%' :: _ => .ok (Reference.out c)
  | '_' :: _ => .ok (Placeholder.read [] c)
  | '\\' :: _ => escaped c
  | cs =>
    if startsNumeral cs then Numeral.read c
    else if Name.startsAt c then .ok (symbol c)
    else Mark.read c

/-- Whether the name of a file can hold the character without quotes. -/
def isFilenameCharacter (c : Char) : Bool :=
  c.isAlphanum
    || ['\u0060', '/', '.', '\\', '!', '-', ':', '_', '$', '*', '~', '?'].contains c

/-- Reads a lexeme where the name of a file is expected. Without one, any lexeme will do. -/
def filename (c : Cursor) : Except ScanError Lexeme :=
  if c.rest.head? = some '"' then quoted .filename c
  else if c.rest.head?.any isFilenameCharacter then
    .ok (.verbatim .filename c (c.rest.takeWhile isFilenameCharacter)
      (c.rest.dropWhile isFilenameCharacter))
  else plain c

/-- Reads the lexeme at a place between tokens, where the name of a file may be expected. -/
def lexeme (expectsFilename : Bool) (c : Cursor) : Except ScanError Lexeme :=
  if expectsFilename then filename c else plain c

/-! ## Every lexeme takes a character -/

theorem precedes_symbol {c : Cursor} (h : Name.startsAt c = true) : c.Precedes (symbol c).next := by
  have hname := Name.precedes_read h
  unfold symbol
  simp only
  split
  · rename_i hunderscore
    obtain ⟨rest, hrest⟩ := List.head?_eq_some_iff.mp hunderscore
    exact hname.trans_reaches (Placeholder.precedes_read hrest).reaches
  · exact hname

theorem precedes_of_escaped {c : Cursor} {lexeme : Lexeme} (h : escaped c = .ok lexeme) :
    c.Precedes lexeme.next := by
  unfold escaped at h
  split at h
  · cases h
  · rename_i escape hread
    split at h
    · rename_i hstarts
      cases h
      exact precedes_symbol hstarts
    · split at h
      · cases h
        exact Escape.precedes_next hread
      · cases h

theorem precedes_of_quoted {kind : TokenKind} {c : Cursor} {lexeme : Lexeme} {rest : List Char}
    (hc : c.rest = '"' :: rest) (h : quoted kind c = .ok lexeme) : c.Precedes lexeme.next := by
  unfold quoted at h
  cases hread : Quoted.read c with
  | error e => simp [hread, Except.map] at h
  | ok found =>
    simp only [hread, Except.map, Except.ok.injEq] at h
    subst h
    exact Quoted.precedes_of_read hc hread

theorem precedes_of_numeral {c : Cursor} {lexeme : Lexeme} (h : Numeral.read c = .ok lexeme) :
    c.Precedes lexeme.next := by
  unfold Numeral.read at h
  split at h
  · cases h
  · rename_i literal rest hsplit
    obtain ⟨hrest, hne⟩ := Literal.append_of_split? hsplit
    -- whether the literal is kept or refused, it is not empty
    have hnext := Cursor.precedes_after hrest hne
    simp only at h
    split at h
    · cases h
    · split at h <;> cases h
      exact hnext
    · cases h
      exact hnext

theorem precedes_of_plain {c : Cursor} {lexeme : Lexeme} (hc : c.rest ≠ [])
    (h : plain c = .ok lexeme) : c.Precedes lexeme.next := by
  unfold plain at h
  split at h
  · contradiction
  · exact precedes_of_quoted ‹_› h
  · cases h
    exact Reference.precedes_slot ‹_›
  · cases h
    exact Reference.precedes_out ‹_›
  · cases h
    exact Placeholder.precedes_read ‹_›
  · exact precedes_of_escaped h
  · split at h
    · exact precedes_of_numeral h
    · split at h
      · cases h
        exact precedes_symbol ‹_›
      · exact Mark.precedes_of_read hc h

theorem precedes_of_lexeme {expectsFilename : Bool} {c : Cursor} {found : Lexeme}
    (hc : c.rest ≠ []) (h : lexeme expectsFilename c = .ok found) : c.Precedes found.next := by
  unfold lexeme filename at h
  split at h
  · split at h
    · rename_i hquote
      obtain ⟨rest, hrest⟩ := List.head?_eq_some_iff.mp hquote
      exact precedes_of_quoted hrest h
    · split at h
      · rename_i hchar
        cases h
        refine Cursor.precedes_after (by simp) ?_
        -- a bare file name takes the first character at least
        cases hrest : c.rest with
        | nil => exact absurd hrest hc
        | cons char rest =>
          simp only [hrest, List.head?_cons, Option.any_some] at hchar
          simp [hchar]
      · exact precedes_of_plain hc h
  · exact precedes_of_plain hc h

/-! ## A whole text -/

/-- Reads the tokens from a place on, and the fault that ends them, if any. Without a fault
    the last token is the end of the input. -/
def tokensFrom (expectsFilename : Bool) (c : Cursor) : List Token × Option ScanError :=
  match _hskip : Trivia.skip c with
  | .error e => ([], some e)
  | .ok place =>
    match _hfound : lexeme expectsFilename place with
    | .error e => ([], some e)
    | .ok found =>
      if _hrest : place.rest = [] then ([found.token place], none)
      else
        let (tokens, fault) := tokensFrom found.kind.takesFilename found.next
        (found.token place :: tokens, fault)
termination_by c.rest.length
decreasing_by
  exact ((Trivia.reaches_of_skip _hskip).trans_precedes
    (precedes_of_lexeme _hrest _hfound)).length_lt

/-- The tokens of a text up to its first fault, and that fault. -/
def tokens (text : String) : List Token × Option ScanError :=
  tokensFrom false (.ofText text)

end Scan

/-- Scans a whole text. The last token is the end of the input. -/
def tokenize (text : String) : Except ScanError (List Token) :=
  match Scan.tokens text with
  | (tokens, none) => .ok tokens
  | (_, some e) => .error e

end Symbolic
