import Symbolic.Proofs.Locations.Enclosing
import Symbolic.Reader.Program

/-!
# Reading onward

The tokens of a text come one behind the other. So does what steps make of them: a step that starts
at an offset leaves the reader at an offset further on, and its value is between the two.

The end of the input is not among these tokens, and nothing is asked of a turn that
goes on without having passed over a token.

## Key results

- `Onward`: tokens one behind the other
- `Reads`: steps whose value is as it should be between the offsets before and after it
- `Reads.bind`, `Reads.attempt`, `Reads.iterate`: how they are put together
-/

namespace Symbolic

open Location

/-- From the offset on, the tokens come one behind the other. None of them is the end of the input,
    and the signs of division are where they may be. -/
inductive Onward (isSign : Location → Prop) : Nat → List Token → Prop
  | nil {lo : Nat} : Onward isSign lo []
  | cons {lo : Nat} {t : Token} {tokens : List Token} (kind : t.kind ≠ .endOfInput)
      (within : t.loc.Within lo t.loc.stop.toNat) (sign : t.kind = .divide → isSign t.loc)
      (rest : Onward isSign t.loc.stop.toNat tokens) : Onward isSign lo (t :: tokens)

namespace Reader

open Parse

variable {isSign : Location → Prop} {s : State} {α β : Type} {lo m : Nat}

/-- What is known of the token to be read next, if it is not the end of the input. -/
theorem onward_current (h : Onward isSign lo s.rest) (hkind : s.current.kind ≠ .endOfInput) :
    s.current.loc.Within lo s.current.loc.stop.toNat ∧
      (s.current.kind = .divide → isSign s.current.loc) ∧
      Onward isSign s.current.loc.stop.toNat s.rest.tail := by
  unfold State.current at hkind ⊢
  cases hrest : s.rest with
  | nil =>
    rw [hrest] at hkind
    exact absurd rfl hkind
  | cons t tokens =>
    rw [hrest] at h
    cases h with
    | cons _ within sign rest => exact ⟨within, sign, rest⟩

/-- A reader stands before the end of the input only when nothing is left. -/
theorem rest_eq_nil_of_onward (h : Onward isSign lo s.rest)
    (hkind : s.current.kind = .endOfInput) : s.rest = [] := by
  unfold State.current at hkind
  cases hrest : s.rest with
  | nil => rfl
  | cons t tokens =>
    rw [hrest] at h hkind
    cases h with
    | cons kind => exact absurd hkind kind

/-- If the step succeeds before tokens from `lo` on, it leaves tokens from some offset on, and its
    value is as it should be there. -/
structure Reads (isSign : Location → Prop) (lo : Nat) (s : State) (m : Parse α)
    (Q : Nat → State → α → Prop) : Prop where
  ok : Onward isSign lo s.rest → ∀ {a : α} {s' : State}, m s = .ok a s' →
    ∃ hi, Onward isSign hi s'.rest ∧ Q hi s' a

/-- What holds of a turn: of the value it goes on with, and of the one it ends the repetition
    with. -/
def TurnHolds (I : Nat → State → α → Prop) (Q : Nat → State → β → Prop) (hi : Nat) (s : State) :
    Turn α β → Prop
  | .again a => I hi s a
  | .done b => Q hi s b

/-- If the turn ends the repetition, or goes on and has passed over a token, it leaves tokens from
    some offset on, and its value is as it should be there. -/
structure ReadsTurn (isSign : Location → Prop) (lo : Nat) (s : State) (m : Parse (Turn α β))
    (I : Nat → State → α → Prop) (Q : Nat → State → β → Prop) : Prop where
  done : Onward isSign lo s.rest → ∀ {b : β} {s' : State}, m s = .ok (.done b) s' →
    ∃ hi, Onward isSign hi s'.rest ∧ Q hi s' b
  again : Onward isSign lo s.rest → ∀ {a : α} {s' : State}, m s = .ok (.again a) s' →
    s'.rest.length < s.rest.length → ∃ hi, Onward isSign hi s'.rest ∧ I hi s' a

namespace Reads

variable {Q : Nat → State → α → Prop} {R : Nat → State → β → Prop} {step : Parse α}
  {f : α → Parse β}

/-- What is known of a result may be weakened. -/
theorem weaken {Q' : Nat → State → α → Prop} (h : Reads isSign lo s step Q)
    (hQ : ∀ {hi s' a}, Q hi s' a → Q' hi s' a) : Reads isSign lo s step Q' where
  ok hs _ _ hstep := by
    obtain ⟨hi, hs', ha⟩ := h.ok hs hstep
    exact ⟨hi, hs', hQ ha⟩

/-! ## Steps put together -/

/-- A value at hand, read at the offset where the reader is. -/
theorem pure {a : α} (h : Q lo s a) : Reads isSign lo s (pure a) Q where
  ok hs _ _ hstep := by
    cases hstep
    exact ⟨lo, hs, h⟩

/-- A step goes on where the one before it ended. -/
theorem bind (h : Reads isSign lo s step Q)
    (hf : ∀ a hi s', Q hi s' a → Reads isSign hi s' (f a) R) :
    Reads isSign lo s (step >>= f) R where
  ok hs _ _ hstep := by
    obtain ⟨a, s₁, hfirst, hsecond⟩ := exists_of_bind_ok hstep
    obtain ⟨hi, hs₁, ha⟩ := h.ok hs hfirst
    exact (hf a hi s₁ ha).ok hs₁ hsecond

/-- A mapped step. -/
theorem map {g : α → β} (h : Reads isSign lo s step fun hi s' a => R hi s' (g a)) :
    Reads isSign lo s (g <$> step) R where
  ok hs _ _ hstep := by
    obtain ⟨a, hfirst, rfl⟩ := exists_of_map_ok hstep
    exact h.ok hs hfirst

/-! ## Single steps -/

/-- Looking at the next token moves nothing. -/
theorem bind_peek {f : Token → Parse β} (hf : Reads isSign lo s (f s.current) R) :
    Reads isSign lo s (peek >>= f) R :=
  ⟨fun hs _ _ h => hf.ok hs h⟩

/-- A step that fails. -/
theorem throw (e : SyntaxError) : Reads isSign lo s (throw e : Parse α) Q :=
  ⟨fun _ _ _ h => nomatch h⟩

/-- What would come after an error does not matter. -/
theorem throw_bind (e : SyntaxError) : Reads isSign lo s (MonadExcept.throw e >>= f) R :=
  ⟨fun _ _ _ h => nomatch h⟩

/-- A step that reports the next token. -/
theorem unexpected : Reads isSign lo s (unexpected : Parse α) Q :=
  ⟨fun _ _ _ h => nomatch h⟩

/-- A step that reports the next token in place of another. -/
theorem missing (kind : TokenKind) : Reads isSign lo s (missing kind : Parse α) Q :=
  ⟨fun _ _ _ h => nomatch h⟩

/-- Whether the input ends here may be asked. -/
theorem bind_atFinalEnd {f : Bool → Parse β} (hf : ∀ isEnd, Reads isSign lo s (f isEnd) R) :
    Reads isSign lo s (atFinalEnd >>= f) R :=
  ⟨fun hs _ _ h => (hf _).ok hs h⟩

/-- A step goes on after a result that does not depend on the state. -/
theorem bind_ofResult {result : Except SyntaxError α}
    (hf : ∀ a, result = .ok a → Reads isSign lo s (f a) R) :
    Reads isSign lo s (ofResult result >>= f) R where
  ok hs _ _ h := by
    cases result with
    | ok a => exact (hf a rfl).ok hs h
    | error e => cases h

/-- Where a token starts, what comes before it does not matter. -/
theorem at_current (hkind : s.current.kind ≠ .endOfInput)
    (h : lo ≤ s.current.loc.start.toNat →
      Reads isSign s.current.loc.start.toNat s step Q) : Reads isSign lo s step Q where
  ok hs _ _ hstep := by
    obtain ⟨within, -, -⟩ := onward_current hs hkind
    refine (h within.start).ok ?_ hstep
    unfold State.current
    -- at the end of the input the current token is an empty one behind it
    cases hrest : s.rest with
    | nil => exact .nil
    | cons t tokens =>
      rw [hrest] at hs
      cases hs with
      | cons kind within sign rest =>
        exact .cons kind ⟨Nat.le_refl _, within.ordered, within.stop⟩ sign rest

/-- What passing over the current token gives. -/
def Passed (isSign : Location → Prop) (lo : Nat) (t : Token) (hi : Nat) (_ : State)
    (loc : Location) : Prop :=
  loc = t.loc ∧ loc.Within lo hi ∧ (t.kind = .divide → isSign loc)

section Tokens

variable (hkind : s.current.kind ≠ .endOfInput)
include hkind

/-- A token is passed over. -/
theorem advance : Reads isSign lo s advance (Passed isSign lo s.current) where
  ok hs _ _ h := by
    cases h
    obtain ⟨within, sign, hrest⟩ := onward_current hs hkind
    exact ⟨_, hrest, rfl, within, sign⟩

/-- An opening bracket is passed over. -/
theorem openBracket : Reads isSign lo s openBracket (Passed isSign lo s.current) where
  ok hs _ _ h := by
    cases h
    obtain ⟨within, sign, hrest⟩ := onward_current hs hkind
    exact ⟨_, hrest, rfl, within, sign⟩

end Tokens

/-- A token that is expected is passed over. -/
theorem expect {kind : TokenKind} (hkind : kind ≠ .endOfInput) :
    Reads isSign lo s (Parse.expect kind) (Passed isSign lo s.current) := by
  refine .bind_peek ?_
  split
  · rename_i hcurrent
    exact advance (hcurrent ▸ hkind)
  · exact .missing kind

/-- A closing bracket is passed over. -/
theorem closeBracket {closer : TokenKind} (hkind : closer ≠ .endOfInput) :
    Reads isSign lo s (Parse.closeBracket closer) (Passed isSign lo s.current) := by
  refine (expect hkind).bind fun loc hi s₁ hloc => ⟨fun hs _ _ h => ?_⟩
  cases h
  exact ⟨hi, hs, hloc⟩

/-! ## Alternatives and repetition -/

/-- After a failed attempt the reader is back where it began. -/
theorem attempt (h : Reads isSign lo s step Q) :
    Reads isSign lo s step.attempt fun hi s' a? => a?.elim (hi = lo) (Q hi s') where
  ok hs _ _ hstep := by
    unfold Parse.attempt at hstep
    split at hstep
    · rename_i hfirst
      cases hstep
      exact h.ok hs hfirst
    · split at hstep
      · cases hstep
        exact ⟨lo, hs, rfl⟩
      · cases hstep

/-- A step with a memory of failures. -/
theorem remember {p : Precedence} (h : Reads isSign lo s step Q) :
    Reads isSign lo s (step.remember p) Q where
  ok hs _ _ hstep := by
    unfold Parse.remember at hstep
    split at hstep
    · cases hstep
    · split at hstep
      · rename_i hfirst
        cases hstep
        exact h.ok hs hfirst
      · split at hstep <;> cases hstep

/-- A turn is a step whose result goes on or is done. -/
theorem turn {turn : Parse (Turn α β)} {I : Nat → State → α → Prop}
    (h : Reads isSign lo s turn (TurnHolds I R)) : ReadsTurn isSign lo s turn I R where
  done hs _ _ hturn := h.ok hs hturn
  again hs _ _ hturn _ := h.ok hs hturn

/-- Turns go on one behind the other. -/
theorem iterate {turn : α → Parse (Turn α β)} {I : Nat → State → α → Prop}
    (hturn : ∀ a lo s, I lo s a → ReadsTurn isSign lo s (turn a) I R) {a : α} (ha : I lo s a) :
    Reads isSign lo s (iterate turn a) R := by
  refine ⟨fun hs {b s'} h => ?_⟩
  -- induction on what remains of the input, which every turn but the last makes shorter
  induction hn : s.rest.length using Nat.strongRecOn generalizing a s lo with
  | _ n ih =>
    subst hn
    rw [Parse.iterate] at h
    split at h
    · cases h
    · rename_i hdone
      cases h
      exact (hturn a lo s ha).done hs hdone
    · rename_i a' s₁ hagain
      split at h
      · rename_i hlt
        obtain ⟨hi, hs₁, ha'⟩ := (hturn a lo s ha).again hs hagain hlt
        exact ih _ hlt ha' hs₁ h rfl
      · cases h

end Reads

end Reader

end Symbolic
