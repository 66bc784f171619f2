import Symbolic.Proofs.Reader.Progress
import Symbolic.Proofs.Reader.Success

/-!
# What syntax errors say is so

Every error of a reader is about a token up to the end of the input, and what it says about that
token is so, whether it arises where the token is read, has been remembered since then, or is
found again after the reader has gone back.

## Key results

- `Truthful`: what has to be so for each kind of error
- `truthful_of_fresh`: it is so
-/

namespace Symbolic.Reader

/-- What a syntax error says is so. -/
def Truthful (table : OperatorTable) (tokens : List Token) : SyntaxError → Prop
  | .unexpectedToken loc found => ∃ t ∈ upToEnd tokens, t.loc = loc ∧ t.kind = found
  | .unmatchedDelimiter loc expected => ∃ t ∈ upToEnd tokens, t.loc = loc ∧ t.kind ≠ expected
  | .nonAssociativeChain loc operator => ∃ t ∈ upToEnd tokens, t.loc = loc ∧ t.kind = operator ∧
      ∃ op ∈ table.lookup? operator .infixed, op.associativity = .nonAssociative
  | .unclosedBracket opening => ∃ t ∈ tokens.takeWhile (·.kind != .endOfInput), t.loc = opening ∧
      t.kind ∈ [.leftParen, .leftBracket, .leftBrace, .leftAssociation]
  | .recursionLimitExceeded loc => ∃ t ∈ upToEnd tokens, t.loc = loc
  | .invalidNumber loc => ∃ t ∈ upToEnd tokens, t.loc = loc ∧
      t.kind ∈ [.number, .slot, .slotSequence, .out]

variable {table : OperatorTable} {tokens : List Token} {t : Token} {e : SyntaxError}

theorem mem_openings {kind : TokenKind} (h : kind.closer?.isSome) :
    kind ∈ [.leftParen, .leftBracket, .leftBrace, .leftAssociation] := by
  unfold TokenKind.closer? at h
  split at h
  all_goals first | decide | cases h

theorem mem_numerals {kind : TokenKind} (h : Expr.holdsNumber kind = true) :
    kind ∈ [.number, .slot, .slotSequence, .out] := by
  unfold Expr.holdsNumber at h
  split at h
  all_goals first | decide | cases h

theorem truthful_of_faults (ht : t ∈ upToEnd tokens) (h : table.Faults t e) :
    Truthful table tokens e := by
  cases h with
  | unexpected => exact ⟨t, ht, rfl, rfl⟩
  | unmatched h => exact ⟨t, ht, rfl, h⟩
  | chained found associativity => exact ⟨t, ht, rfl, rfl, _, found, associativity⟩
  | numeral h => exact ⟨t, ht, rfl, mem_numerals h⟩
  | outOfRoom => exact ⟨t, ht, rfl⟩

/-- The end of the input opens nothing. -/
theorem truthful_unclosedBracket (ht : t ∈ upToEnd tokens) (h : t.kind.closer?.isSome) :
    Truthful table tokens (.unclosedBracket t.loc) := by
  rcases List.mem_append.mp ht with ht | ht
  · exact ⟨t, ht, rfl, mem_openings h⟩
  · rw [List.mem_singleton.mp ht] at h
    cases h

/-- Tokens up to the end of the input are what backs the errors about it. -/
def Evidence.upToEnd (table : OperatorTable) (tokens : List Token) : Evidence table where
  token t := t ∈ Reader.upToEnd tokens
  error := Truthful table tokens
  faults := truthful_of_faults
  unclosed := truthful_unclosedBracket

theorem orderly_ofTokens (table : OperatorTable) (tokens : List Token) :
    Orderly (.upToEnd table tokens) (.ofTokens tokens) where
  rest _ ht := List.mem_append_left _ ht
  stop := List.mem_append_right _ (List.mem_singleton.mpr rfl)
  brackets _ h := nomatch h
  failures _ h := nomatch h

theorem truthful_of_readTokens {settings : Settings} (h : readTokens settings tokens = .error e) :
    Truthful settings.table tokens e := by
  have hprogram := careful_program settings (orderly_ofTokens settings.table tokens)
  rw [program_error h] at hprogram
  obtain ⟨_, _⟩ | ⟨-, -, -, justified⟩ := hprogram
  exact justified

/-- Whatever the table and the tokens: an error that reading the whole input ends with is truthful,
    so is one that reading an expression at its start ends with, and so are all that are remembered
    on the way. -/
theorem truthful_of_fresh (settings : Settings) (tokens : List Token) :
    (∀ e, readTokens settings tokens = .error e → Truthful settings.table tokens e) ∧
      (∀ p e s', expression settings.table settings.limit p (.ofTokens tokens) = .error e s' →
        Truthful settings.table tokens e) ∧
      ∀ failure ∈ (run settings (.ofTokens tokens)).2.failures,
        Truthful settings.table tokens failure.2 := by
  have hstart := orderly_ofTokens settings.table tokens
  have hprogram := careful_program settings hstart
  refine ⟨fun e h => truthful_of_readTokens h, fun p e s' h => ?_, ?_⟩
  · have hexpression := careful_expression _ settings.limit p hstart
    rw [h] at hexpression
    obtain ⟨_, _⟩ | ⟨-, -, -, justified⟩ := hexpression
    exact justified
  · -- what is remembered in the end, after a success or an error
    unfold run
    revert hprogram
    generalize program settings (.ofTokens tokens) = r
    rintro (⟨orderly, -, -, -⟩ | ⟨orderly, -, -, -⟩) <;> exact orderly.failures

/-- The tokens of `f[a;`, which leave a bracket open. -/
def openStatement : List Token :=
  [⟨.symbol, "f", ⟨0, 1⟩⟩, ⟨.leftBracket, "[", ⟨1, 2⟩⟩, ⟨.symbol, "a", ⟨2, 3⟩⟩,
    ⟨.semicolon, ";", ⟨3, 4⟩⟩]

theorem truthful_openStatement :
    readTokens {} openStatement = .error (.unclosedBracket ⟨1, 2⟩) ∧
      Truthful .standard openStatement (.unclosedBracket ⟨1, 2⟩) := by
  have h : readTokens {} openStatement = .error (.unclosedBracket ⟨1, 2⟩) := by decide +kernel
  exact ⟨h, (truthful_of_fresh {} openStatement).1 _ h⟩

end Symbolic.Reader
