import Mathlib.Control.Monad.Basic
import Symbolic.Reader.Program

/-!
# What a success tells

A reading step that succeeds has passed over some of the tokens before it. What it has made of
them is a statement about its value, the atoms among these tokens and the state that it leaves.
Nothing is said about a step that fails.

## Key results

- `Yields.bind`, `Yields.attempt`, `Yields.iterate`: how such statements are put together
- `Yields.bind_advance`, `Yields.expect`: passing over tokens that are no atoms
-/

namespace Symbolic.Reader

open Parse

variable {α β : Type} {s s₁ s₂ : State} {a a' : List Token}

/-! ## Passing over tokens -/

/-- From `s` to `s'` some tokens are passed over, and the given atoms are those among them. -/
def State.Passes (s : State) (atoms : List Token) (s' : State) : Prop :=
  ∃ passed, s.rest = passed ++ s'.rest ∧ passed.filter (·.kind.isAtom) = atoms

namespace State

/-- No token is passed over. -/
theorem Passes.refl (s : State) : s.Passes [] s :=
  ⟨[], rfl, rfl⟩

/-- Tokens are passed over one after the other. -/
theorem Passes.trans (h : s.Passes a s₁) (h' : s₁.Passes a' s₂) : s.Passes (a ++ a') s₂ := by
  obtain ⟨passed, hrest, rfl⟩ := h
  obtain ⟨passed', hrest', rfl⟩ := h'
  exact ⟨passed ++ passed', by rw [hrest, hrest', List.append_assoc], List.filter_append _ _⟩

/-- A reader with the same tokens before it has passed over none. -/
theorem Passes.of_rest_eq (h : s₁.rest = s.rest) : s.Passes [] s₁ :=
  ⟨[], h.symm, rfl⟩

/-- Passing over a token that is no atom, or over the end of the input. -/
theorem passes_tail (hkind : s.current.kind.isAtom = false) (hrest : s₁.rest = s.rest.tail) :
    s.Passes [] s₁ := by
  unfold Passes
  unfold current at hkind
  cases h : s.rest with
  | nil => exact ⟨[], by simp [hrest, h], rfl⟩
  | cons t rest =>
    have ht : t.kind.isAtom = false := by simpa [h] using hkind
    exact ⟨[t], by simp [hrest, h], by simp [ht]⟩

/-- An atom is passed over. -/
theorem passes_atom (hkind : s.current.kind.isAtom = true) (hrest : s₁.rest = s.rest.tail) :
    s.Passes [s.current] s₁ := by
  unfold Passes
  unfold current at hkind ⊢
  cases h : s.rest with
  | nil =>
    -- the end of the input is no atom
    rw [h] at hkind
    cases hkind
  | cons t rest =>
    have ht : t.kind.isAtom = true := by simpa [h] using hkind
    exact ⟨[t], by simp [hrest, h], by simp [ht]⟩

end State

/-! ## Steps -/

/-- If the step succeeds from `s`, its value, the atoms it passes over and the state it leaves
    are as they should be. -/
structure Yields (s : State) (m : Parse α) (P : α → List Token → State → Prop) : Prop where
  passes : ∀ {v : α} {s' : State}, m s = .ok v s' → ∃ atoms, s.Passes atoms s' ∧ P v atoms s'

/-- What holds of the outcome of a turn. -/
def Parse.Turn.Holds (A : α → Prop) (B : β → Prop) : Turn α β → Prop
  | .again v => A v
  | .done v => B v

namespace Yields

variable {P : α → List Token → State → Prop} {Q : β → List Token → State → Prop}
  {m : Parse α} {f : α → Parse β}

/-- A value at hand, with no token passed over. -/
theorem pure {v : α} (h : P v [] s) : Yields s (pure v) P := by
  refine ⟨fun hm => ?_⟩
  cases hm
  exact ⟨[], .refl s, h⟩

/-- A step goes on with what the one before it has left. -/
theorem bind (hm : Yields s m P)
    (hf : ∀ v atoms s₁, P v atoms s₁ → Yields s₁ (f v) fun w more => Q w (atoms ++ more)) :
    Yields s (m >>= f) Q := by
  refine ⟨fun {w s₂} h => ?_⟩
  change EStateM.bind m f s = _ at h
  unfold EStateM.bind at h
  split at h
  · rename_i v s₁ hv
    obtain ⟨atoms, hpasses, hP⟩ := hm.passes hv
    obtain ⟨more, hpasses', hQ⟩ := (hf v atoms s₁ hP).passes h
    exact ⟨atoms ++ more, hpasses.trans hpasses', hQ⟩
  · cases h

/-- A mapped step. -/
theorem map {g : α → β} (hm : Yields s m fun v atoms s' => Q (g v) atoms s') :
    Yields s (g <$> m) Q := by
  rw [map_eq_pure_bind]
  refine hm.bind fun v atoms s₁ hQ => .pure ?_
  rwa [List.append_nil]

/-! ## Single steps -/

/-- A step that fails has no success. -/
theorem throw (e : SyntaxError) : Yields s (throw e : Parse α) P :=
  ⟨fun h => nomatch h⟩

/-- Nor has a step that reports the next token. -/
theorem unexpected : Yields s (unexpected : Parse α) P :=
  ⟨fun h => nomatch h⟩

/-- Nor has one that reports it in place of another. -/
theorem missing (kind : TokenKind) : Yields s (missing kind : Parse α) P :=
  ⟨fun h => nomatch h⟩

/-- Looking at the next token passes over none. -/
theorem bind_peek {f : Token → Parse β} (hf : Yields s (f s.current) Q) :
    Yields s (peek >>= f) Q :=
  ⟨fun h => hf.passes h⟩

/-- A step goes on after a result that does not depend on the state. -/
theorem bind_ofResult {result : Except SyntaxError α}
    (hf : ∀ v, result = .ok v → Yields s (f v) Q) : Yields s (ofResult result >>= f) Q := by
  refine ⟨fun h => ?_⟩
  cases result with
  | ok v => exact (hf v rfl).passes h
  | error e => cases h

/-- A token that is no atom is passed over. -/
theorem bind_advance {f : Location → Parse β} (hkind : s.current.kind.isAtom = false)
    (hf : ∀ s₁, Yields s₁ (f s.current.loc) Q) : Yields s (advance >>= f) Q := by
  refine ⟨fun h => ?_⟩
  obtain ⟨atoms, hpasses, hQ⟩ := (hf { s with rest := s.rest.tail }).passes h
  exact ⟨atoms, (State.passes_tail hkind rfl).trans hpasses, hQ⟩

/-- An atom is passed over. -/
theorem bind_advance_atom {f : Location → Parse β} (hkind : s.current.kind.isAtom = true)
    (hf : ∀ s₁, Yields s₁ (f s.current.loc) fun w more => Q w (s.current :: more)) :
    Yields s (advance >>= f) Q := by
  refine ⟨fun h => ?_⟩
  obtain ⟨atoms, hpasses, hQ⟩ := (hf { s with rest := s.rest.tail }).passes h
  exact ⟨s.current :: atoms, (State.passes_atom hkind rfl).trans hpasses, hQ⟩

/-- An opening bracket is passed over. -/
theorem bind_openBracket {f : Location → Parse β} (hkind : s.current.kind.isAtom = false)
    (hf : ∀ s₁, Yields s₁ (f s.current.loc) Q) : Yields s (openBracket >>= f) Q := by
  refine ⟨fun h => ?_⟩
  obtain ⟨atoms, hpasses, hQ⟩ :=
    (hf { s with rest := s.rest.tail, brackets := s.current.loc :: s.brackets }).passes h
  exact ⟨atoms, (State.passes_tail hkind rfl).trans hpasses, hQ⟩

/-- Passing over a delimiter. -/
theorem expect {kind : TokenKind} (hkind : kind.isAtom = false) :
    Yields s (Parse.expect kind) fun _ atoms _ => atoms = [] := by
  refine .bind_peek ?_
  split
  · rename_i hcurrent
    refine ⟨fun h => ?_⟩
    cases h
    exact ⟨[], State.passes_tail (by rw [hcurrent, hkind]) rfl, rfl⟩
  · exact .missing kind

/-- A closing bracket is passed over. -/
theorem closeBracket {closer : TokenKind} (hkind : closer.isAtom = false) :
    Yields s (Parse.closeBracket closer) fun _ atoms _ => atoms = [] := by
  refine (expect hkind).bind fun loc atoms s₁ hatoms => ⟨fun h => ?_⟩
  cases h
  exact ⟨[], .of_rest_eq rfl, by rw [hatoms]; rfl⟩

/-- Whether the input ends here may be asked. -/
theorem bind_atFinalEnd {f : Bool → Parse β} (hf : ∀ isEnd, Yields s (f isEnd) Q) :
    Yields s (atFinalEnd >>= f) Q :=
  ⟨fun h => (hf _).passes h⟩

/-! ## Alternatives and repetition -/

/-- Without a value no atoms are passed over. -/
theorem attempt (hm : Yields s m P) :
    Yields s m.attempt fun v? atoms s' => v?.elim (atoms = []) fun v => P v atoms s' := by
  refine ⟨fun h => ?_⟩
  unfold Parse.attempt at h
  split at h
  · rename_i hv
    cases h
    exact hm.passes hv
  · split at h
    · cases h
      exact ⟨[], .of_rest_eq rfl, rfl⟩
    · cases h

/-- A step with a memory of failures. -/
theorem remember {step : Parse α} {p : Precedence} (hm : Yields s step P) :
    Yields s (Parse.remember p step) P := by
  refine ⟨fun h => ?_⟩
  unfold Parse.remember at h
  split at h
  · cases h
  · split at h
    · rename_i hv
      cases h
      exact hm.passes hv
    · split at h <;> cases h

/-- What the turns of a repetition preserve holds before the turn that ends it. -/
theorem iterate {turn : α → Parse (Turn α β)} {I : α → List Token → State → Prop}
    (hturn : ∀ v atoms s₁, I v atoms s₁ → Yields s₁ (turn v) fun outcome more s₂ =>
      outcome.Holds (fun v' => I v' (atoms ++ more) s₂) fun w => Q w (atoms ++ more) s₂)
    {v : α} (hv : I v a s) : Yields s (iterate turn v) fun w more => Q w (a ++ more) := by
  refine ⟨fun {w s'} h => ?_⟩
  -- induction on what remains of the input, which every turn but the last makes shorter
  induction hn : s.rest.length using Nat.strongRecOn generalizing v a s with
  | _ n ih =>
    subst hn
    rw [Parse.iterate] at h
    split at h
    · cases h
    · rename_i hdone
      cases h
      exact (hturn v a s hv).passes hdone
    · rename_i v' s₁ hagain
      split at h
      · rename_i hlt
        obtain ⟨atoms, hpasses, hI⟩ := (hturn v a s hv).passes hagain
        obtain ⟨more, hpasses', hQ⟩ := ih _ hlt hI h rfl
        exact ⟨atoms ++ more, hpasses.trans hpasses', by rwa [← List.append_assoc]⟩
      · cases h

end Yields

end Symbolic.Reader
