import Symbolic.Proofs.Reader.Memory

/-!
# Room only makes a reader finish

Two readers that remember failures, one with more room than the other, start at the same place
with the same memory. They stay together for as long as the one with less room has some left:
what it looks up and what it puts on record is what the other one looks up and puts on record.
So an answer that is not about room stands in any more room.

## Key results

- `Follows.remember`: following respects the memory of failures
- `follows_expression_of_le`: more room changes no outcome but running out of room
- `run_eq_of_le`: nor does it change any from a reader under way, with brackets open and
  failures remembered
- `readTokens_eq_of_le`: raising the limit changes no finished answer
-/

namespace Symbolic.Reader

open Parse

variable {tokens : List Token} {stop : Location}

namespace Scene

/-- The two readers agree in all brackets around them and in all that they remember. -/
def identical (tokens : List Token) (stop : Location) : Scene where
  tokens := tokens
  stop := stop
  around outer outer' := outer = outer'
  known failures failures' := failures = failures'
  head?_eq := congrArg List.head?
  cons loc := congrArg (loc :: ·)

end Scene

theorem Alike.eq_of_identical {inner outer : List Location} {s t : State}
    (h : Alike (.identical tokens stop) inner outer outer s t) : s = t := by
  obtain ⟨rest, suffix, hstop, hstop', brackets, brackets', known⟩ := h
  have hbrackets : s.brackets = t.brackets := brackets.trans brackets'.symm
  cases s
  cases t
  simp_all [Scene.identical]

/-- Two readers with the same memory find the same failures in it, and make the same record of
    a new one. -/
theorem Follows.remember {step step' : Parse Expr} (p : Precedence)
    (h : Follows (.identical tokens stop) 0 0 step step') :
    Follows (.identical tokens stop) 0 0 (remember p step) (remember p step') := by
  refine ⟨fun {inner outer outer' s t} hinner haround halike => ?_⟩
  obtain rfl : outer = outer' := haround
  obtain rfl := halike.eq_of_identical
  have hmeets := h.meets hinner rfl halike
  show Meets _ outer outer 0 (Parse.remember p step s) (Parse.remember p step' s)
  unfold Parse.remember
  split
  · exact halike.meets_error _
  · revert hmeets
    generalize step s = r, step' s = r'
    rintro (⟨alike, length⟩ | @⟨e, s', t', _, _, hstop, hstop', brackets, brackets', known⟩ |
      hfinal)
    · exact .ok alike length
    · -- both remember the failure, or neither does
      dsimp only
      split
      · have hrecord : (s.occasion p, e) :: s'.failures = (s.occasion p, e) :: t'.failures :=
          congrArg _ known
        exact .error hstop hstop' brackets brackets' hrecord
      · exact .error hstop hstop' brackets brackets' known
    · -- running out of room is never remembered
      simp only [hfinal, Bool.false_eq_true, if_false]
      exact .final hfinal

theorem follows_expression_of_le (table : OperatorTable) {room room' : Nat} (h : room ≤ room')
    (p : Precedence) :
    Follows (.identical tokens stop) 0 0 (expression table room p) (expression table room' p) := by
  induction room generalizing room' p with
  | zero => exact ⟨fun _ _ _ => .final rfl⟩
  | succ room ih =>
    obtain ⟨room', rfl⟩ : ∃ n, room' = n + 1 := ⟨room' - 1, by omega⟩
    exact .remember p (follows_chain (fun q => ih (by omega) q) p)

/-! ## Whole inputs -/

theorem isRecoverable_of_ne {e : SyntaxError} (h : ∀ loc, e ≠ .recursionLimitExceeded loc) :
    e.isRecoverable = true := by
  cases e with
  | recursionLimitExceeded loc => exact absurd rfl (h loc)
  | _ => rfl

/-- Wherever a reader is and whatever it has learnt, it ends with the same answer in more room,
    unless it runs out of room. -/
theorem run_eq_of_le {table : OperatorTable} {limit limit' : Nat} (hle : limit ≤ limit')
    (s : State) (h : ∀ loc, (run ⟨table, limit⟩ s).1 ≠ .error (.recursionLimitExceeded loc)) :
    (run ⟨table, limit'⟩ s).1 = (run ⟨table, limit⟩ s).1 := by
  have halike : Alike (.identical s.rest s.stop) [] s.brackets s.brackets s s :=
    ⟨rfl, List.suffix_refl _, rfl, rfl, rfl, rfl, rfl⟩
  have hmeets := (follows_program (follows_expression_of_le table hle)).meets rfl rfl halike
  unfold run program at h ⊢
  revert h hmeets
  generalize iterate (programTurn (expression table limit)) [] s = r,
    iterate (programTurn (expression table limit')) [] s = r'
  rintro h (_ | _ | @⟨e, _, _, hfinal⟩)
  · rfl
  · rfl
  · -- the only error that is not recoverable is running out of room
    have he : e.isRecoverable = true :=
      isRecoverable_of_ne fun loc heq => h loc (congrArg Except.error heq)
    simp [hfinal] at he

/-- In whatever room a reader does not run out of it, it ends with the same answer. -/
theorem run_unique {table : OperatorTable} {limit limit' : Nat} (s : State)
    (h : ∀ loc, (run ⟨table, limit⟩ s).1 ≠ .error (.recursionLimitExceeded loc))
    (h' : ∀ loc, (run ⟨table, limit'⟩ s).1 ≠ .error (.recursionLimitExceeded loc)) :
    (run ⟨table, limit⟩ s).1 = (run ⟨table, limit'⟩ s).1 := by
  rcases Nat.le_total limit limit' with hle | hle
  · exact (run_eq_of_le hle s h).symm
  · exact run_eq_of_le hle s h'

/-- A reader that does not run out of room ends with the same tree, with no tree or with the same
    error in any more room. -/
theorem readTokens_eq_of_le (table : OperatorTable) {limit limit' : Nat} (hle : limit ≤ limit')
    (tokens : List Token)
    (h : ∀ loc, readTokens ⟨table, limit⟩ tokens ≠ .error (.recursionLimitExceeded loc)) :
    readTokens ⟨table, limit'⟩ tokens = readTokens ⟨table, limit⟩ tokens :=
  run_eq_of_le hle (.ofTokens tokens) h

/-- Room for five nested expressions is enough to find that a bracket of `f[a;g[b;` is open. -/
theorem readTokens_openCalls_of_le :
    (∀ loc, readTokens ⟨.standard, 5⟩ openCalls ≠ .error (.recursionLimitExceeded loc)) ∧
      readTokens ⟨.standard, 128⟩ openCalls = readTokens ⟨.standard, 5⟩ openCalls := by
  have h : readTokens ⟨.standard, 5⟩ openCalls = .error (.unclosedBracket .zero) := by
    decide +kernel
  have hroomy : ∀ loc,
      readTokens ⟨.standard, 5⟩ openCalls ≠ .error (.recursionLimitExceeded loc) := by
    intro loc heq
    cases h.symm.trans heq
  exact ⟨hroomy, readTokens_eq_of_le .standard (by decide) openCalls hroomy⟩

end Symbolic.Reader
