import Symbolic.Proofs.Lockstep.Expression

/-!
# Errors that more input does not mend

An input that fails for a reason of its own still fails when more tokens follow. The error alone
does not tell whether that is so: at the end of the input a missing delimiter is reported like one
that another token stands for, and an alternative that was given up because of the end may leave
an error about an earlier token. On record, though, are all the failures on the way.

## Key results

- `exists_error_of_append`: an input that fails, with no failure because of its end, fails with
  more tokens, too
-/

namespace Symbolic

instance (stop : Location) (e : SyntaxError) : Decidable (e.IsAboutEnd stop) :=
  decidable_of_iff
    (e.isIncomplete = true ∨ e.kind?.any fun kind => e = .unmatchedDelimiter stop kind)
    (or_congr_right (by cases e <;> simp [SyntaxError.kind?]))

namespace Reader

open Parse Filter

variable {room : Nat} {s s' : State} {e : SyntaxError} {tokens more : List Token}

/-! ## Errors of whole inputs -/

theorem exists_of_bind_error {α β : Type} {m : Parse α} {f : α → Parse β}
    (h : (m >>= f) s = .error e s') :
    m s = .error e s' ∨ ∃ v s₁, m s = .ok v s₁ ∧ f v s₁ = .error e s' := by
  change EStateM.bind m f s = _ at h
  unfold EStateM.bind at h
  split at h
  · exact .inr ⟨_, _, by assumption, h⟩
  · rename_i hm
    cases h
    exact .inl hm

/-- An error of a whole input is on record, unless it is about a token that leads nowhere. -/
theorem recorded_of_program_error {exprs : List Expr}
    (h : iterate (programTurn (expression .standard room)) exprs s = .error e s')
    (he : e.isRecoverable = true) :
    (∃ occasion, (occasion, e) ∈ s'.failures) ∨ e = s'.unexpected := by
  -- induction on the tokens that are left, one expression of the input at a time
  induction hn : s.rest.length using Nat.strongRecOn generalizing exprs s with
  | _ n ih =>
    subst hn
    rw [iterate] at h
    split at h
    · rename_i hturn
      cases h
      unfold programTurn at hturn
      rw [peek_bind] at hturn
      split at hturn
      · cases hturn
      · rcases exists_of_bind_error hturn with hexpr | ⟨_, _, -, hturn⟩
        · exact .inl (exists_mem_of_error hexpr he)
        · cases hturn
    · cases h
    · split at h
      · rename_i hlt
        exact ih _ hlt h rfl
      · cases h
        exact .inr rfl

theorem not_isAboutEnd_unexpected {stop : Location} (h : s.unexpected.isIncomplete = false) :
    ¬s.unexpected.IsAboutEnd stop := by
  rintro (hincomplete | ⟨kind, hmissing⟩)
  · rw [h] at hincomplete
    cases hincomplete
  · unfold State.unexpected State.faultAt at hmissing
    split at hmissing
    · cases hbrackets : s.brackets <;> rw [hbrackets] at hmissing <;> cases hmissing
    · cases hmissing

/-! ## More tokens -/

/-- A reader of tokens, and one of the same tokens with more after them. -/
def Course.continued (tokens more : List Token) (endFree : ∀ t ∈ tokens, t.kind ≠ .endOfInput) :
    Course where
  tokens := tokens
  after := more.takeWhile (·.kind != .endOfInput)
  stop := (State.ofTokens tokens).stop
  stop' := (State.ofTokens (tokens ++ more)).stop
  around := []
  ending := .loose
  endFree := endFree
  closed h := nomatch h
  stopped h := nomatch h

theorem sync_continued (endFree : ∀ t ∈ tokens, t.kind ≠ .endOfInput) (hne : tokens ≠ []) :
    Sync (.continued tokens more endFree) .empty .zero (.ofTokens tokens)
      (.ofTokens (tokens ++ more)) := by
  have hrest := rest_ofTokens endFree
  exact
    { suffix := (congrArg (· <:+ tokens) hrest).mpr (List.suffix_refl _)
      rest := by
        rw [rest_ofTokens_more endFree, hrest]
        rfl
      stop' := rfl
      brackets' := rfl
      forgetful := rfl
      stop := rfl
      outer := List.suffix_refl _
      known := known_nil
      length := rfl
      balanced := fun h => nomatch h
      live := fun _ hnil => hne (hrest.symm.trans hnil) }

/-- If the first reader fails, but neither because of its end nor after a failure there, the second
    one does not succeed. -/
theorem Outcome.not_eventually_ok {α : Type} {course : Course} {frame : Frame} {level : Level}
    {results : Nat → EStateM.Result SyntaxError State α} {v : α} {t' : State}
    (h : Outcome course frame level (.error e s') results) (he : e.isRecoverable = true)
    (habout : ¬e.IsAboutEnd course.stop) (huntouched : ¬FailedAtEnd course.stop s'.failures) :
    ¬∀ᶠ room in atTop, results room = .ok v t' := by
  intro hok
  cases h with
  | error _ _ _ ht =>
    obtain ⟨room, hok, t₁, ht, -⟩ := (hok.and ht).exists
    cases hok.symm.trans ht
  | final hfinal =>
    rw [he] at hfinal
    cases hfinal
  | dead _ ht =>
    obtain ⟨room, hok, e', t₁, ht, -⟩ := (hok.and ht).exists
    cases hok.symm.trans ht
  | failedError _ hfailed => exact hfailed.elim habout huntouched

/-- If an input fails with an error that is not due to its end, and none of the failures on the way
    there was due to it either, then it fails with more tokens after it, too. -/
theorem exists_error_of_append {limit limit' : Nat}
    (endFree : ∀ t ∈ tokens, t.kind ≠ .endOfInput)
    (h : readTokens ⟨.standard, limit⟩ tokens = .error e) (he : e.isRecoverable = true)
    (hincomplete : e.isIncomplete = false)
    (huntouched : ∀ failure ∈ (run ⟨.standard, limit⟩ (.ofTokens tokens)).2.failures,
      ¬failure.2.IsAboutEnd (State.ofTokens tokens).stop) :
    ∃ e', readTokens ⟨.standard, limit'⟩ (tokens ++ more) = .error e' := by
  cases hmore : readTokens ⟨.standard, limit'⟩ (tokens ++ more) with
  | error e' => exact ⟨e', rfl⟩
  | ok e? =>
    exfalso
    have hne : tokens ≠ [] := by
      rintro rfl
      rw [readTokens_nil] at h
      cases h
    have hs : iterate (programTurn (expression .standard limit)) [] (.ofTokens tokens) =
        .error e (run ⟨.standard, limit⟩ (.ofTokens tokens)).2 := program_error h
    have habout : ¬e.IsAboutEnd (State.ofTokens tokens).stop := by
      rcases recorded_of_program_error hs he with ⟨occasion, hmem⟩ | rfl
      · exact huntouched _ hmem
      · exact not_isAboutEnd_unexpected hincomplete
    have hending : (Course.continued tokens more endFree).ending ≠ .stopped := fun h => nomatch h
    have houtcome := outcome_program limit hending [] (sync_continued endFree hne)
    rw [hs] at houtcome
    -- with enough room the second reader accepts without a memory
    obtain ⟨-, t', -, -, hok⟩ := exists_sync_of_readTokens hmore
    exact houtcome.not_eventually_ok he habout
      (fun ⟨failure, hmem, hfailed⟩ => huntouched failure hmem hfailed) hok

/-- The tokens of `f[a)`. -/
def mismatchedCall : List Token :=
  [⟨.symbol, "f", .ofOffsets 0 1⟩, ⟨.leftBracket, "[", .ofOffsets 1 2⟩,
    ⟨.symbol, "a", .ofOffsets 2 3⟩, ⟨.rightParen, ")", .ofOffsets 3 4⟩]

/-- No tokens after `f[a)` mend it. -/
theorem exists_error_mismatchedCall :
    (∀ t ∈ mismatchedCall, t.kind ≠ .endOfInput) ∧
      readTokens {} mismatchedCall = .error (.unmatchedDelimiter (.ofOffsets 3 4) .rightBracket) ∧
      (∀ failure ∈ (run {} (.ofTokens mismatchedCall)).2.failures,
        ¬failure.2.IsAboutEnd (State.ofTokens mismatchedCall).stop) ∧
      ∀ (limit : Nat) (more : List Token),
        ∃ e', readTokens ⟨.standard, limit⟩ (mismatchedCall ++ more) = .error e' := by
  have hfree : ∀ t ∈ mismatchedCall, t.kind ≠ .endOfInput := by decide
  have herror : readTokens {} mismatchedCall =
      .error (.unmatchedDelimiter (.ofOffsets 3 4) .rightBracket) := by
    decide +kernel
  have huntouched : ∀ failure ∈ (run {} (.ofTokens mismatchedCall)).2.failures,
      ¬failure.2.IsAboutEnd (State.ofTokens mismatchedCall).stop := by
    decide +kernel
  exact ⟨hfree, herror, huntouched, fun limit more =>
    exists_error_of_append hfree herror rfl rfl huntouched⟩

/-- The tokens of `a~f`, which `~b` makes an application of `f`. -/
def openInfix : List Token :=
  [⟨.symbol, "a", .ofOffsets 0 1⟩, ⟨.infixMark, "~", .ofOffsets 1 2⟩,
    ⟨.symbol, "f", .ofOffsets 2 3⟩]

/-- What comes after `a~f` in `a~f~b`. -/
def closedInfix : List Token :=
  [⟨.infixMark, "~", .ofOffsets 3 4⟩, ⟨.symbol, "b", .ofOffsets 4 5⟩]

/-- The error of `a~f` is not due to its end, it seems, and still more tokens mend it. -/
theorem not_final_openInfix :
    ¬∀ (tokens more : List Token) (limit limit' : Nat) (e : SyntaxError),
      (∀ t ∈ tokens, t.kind ≠ .endOfInput) →
      readTokens ⟨.standard, limit⟩ tokens = .error e → e.isRecoverable = true →
      e.isIncomplete = false →
      ∃ e', readTokens ⟨.standard, limit'⟩ (tokens ++ more) = .error e' := by
  intro h
  have herror : readTokens {} openInfix =
      .error (.unmatchedDelimiter (.ofOffsets 3 3) .infixMark) := by
    decide +kernel
  obtain ⟨e', he'⟩ := h openInfix closedInfix 128 128 _ (by decide) herror rfl rfl
  have hok : (readTokens {} (openInfix ++ closedInfix)).isOk = true := by
    decide +kernel
  rw [show readTokens {} (openInfix ++ closedInfix) = .error e' from he'] at hok
  cases hok

end Reader

end Symbolic
