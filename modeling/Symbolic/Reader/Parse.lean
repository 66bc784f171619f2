import Symbolic.Reader.State

/-! # Reading steps

A reading step changes the state of the reader and gives a value or an error. After an error
the reader stays where the error arose. -/

namespace Symbolic.Reader

/-- A reading step with a value. -/
abbrev Parse := EStateM SyntaxError State

namespace Parse

/-! ## Tokens -/

/-- The token to be read next. -/
def peek : Parse Token := fun s =>
  .ok s.current s

/-- Passes over the token to be read next. The end of the input stays. -/
def advance : Parse Location := fun s =>
  .ok s.current.loc { s with rest := s.rest.tail }

/-- Fails because of the token to be read next. -/
def unexpected {α : Type} : Parse α := fun s =>
  .error s.unexpected s

/-- Fails because a delimiter is missing. -/
def missing {α : Type} (expected : TokenKind) : Parse α := fun s =>
  .error (s.missing expected) s

/-- Passes over a delimiter. -/
def expect (expected : TokenKind) : Parse Location := do
  if (← peek).kind = expected then advance else missing expected

/-- The value of a result, or its error. -/
def ofResult {α : Type} (result : Except SyntaxError α) : Parse α := fun s =>
  match result with
  | .ok a => .ok a s
  | .error e => .error e s

/-! ## Brackets -/

/-- Passes over an opening bracket, which is open from now on. -/
def openBracket : Parse Location := fun s =>
  .ok s.current.loc { s with rest := s.rest.tail, brackets := s.current.loc :: s.brackets }

/-- Passes over the bracket that closes the innermost open one. -/
def closeBracket (closer : TokenKind) : Parse Location := do
  let loc ← expect closer
  modify fun s => { s with brackets := s.brackets.tail }
  return loc

/-- Whether the input ends here with no bracket open. -/
def atFinalEnd : Parse Bool := fun s =>
  .ok (s.current.kind == .endOfInput && s.brackets.isEmpty) s

/-! ## Alternatives -/

/-- Tries a step. If it fails, the reader goes back to where the step began, and there is no
    value. An error that is final is passed on. -/
def attempt {α : Type} (step : Parse α) : Parse (Option α) := fun s =>
  match step s with
  | .ok a s' => .ok (some a) s'
  | .error e s' => if e.isRecoverable then .ok none (s'.rewind s.mark) else .error e s'

/-- Reads an expression, unless this is known to fail. Remembers how it failed, if it does. -/
def remember {α : Type} (precedence : Precedence) (step : Parse α) : Parse α := fun s =>
  match s.failures.lookup (s.occasion precedence) with
  | some e => .error e s
  | none =>
    match step s with
    | .ok a s' => .ok a s'
    | .error e s' =>
      if e.isRecoverable then
        .error e { s' with failures := (s.occasion precedence, e) :: s'.failures }
      else .error e s'

/-! ## Repetition -/

/-- The outcome of one turn of a repetition. -/
inductive Turn (α β : Type) where
  /-- Goes on from `a`. -/
  | again (a : α)
  /-- Ends with `b`. -/
  | done (b : β)

/-- Takes turns until one ends the repetition. Each turn has to pass over a token; one that
    goes on without doing so stands before a token that leads nowhere. -/
def iterate {α β : Type} (turn : α → Parse (Turn α β)) (a : α) : Parse β := fun s =>
  match turn a s with
  | .error e s' => .error e s'
  | .ok (.done b) s' => .ok b s'
  | .ok (.again a) s' =>
    if s'.rest.length < s.rest.length then iterate turn a s' else .error s'.unexpected s'
termination_by s => s.rest.length

end Parse

/-! ## Outcomes

* `bind_ok`, `bind_error`, `exists_of_bind_ok`, `map_ok`  steps put together
* `expect_eq`, `closeBracket_eq`  delimiters -/

open Parse

variable {s s' : State} {α β : Type}

/-- A step goes on with the value of the one before it. -/
theorem bind_ok {m : Parse α} {a : α} (f : α → Parse β) (h : m s = .ok a s') :
    (m >>= f) s = f a s' := by
  show EStateM.bind m f s = _
  simp only [EStateM.bind, h]

/-- It is not taken after an error. -/
theorem bind_error {m : Parse α} {f : α → Parse β} {e : SyntaxError} (h : m s = .error e s') :
    (m >>= f) s = .error e s' := by
  show EStateM.bind m f s = _
  simp only [EStateM.bind, h]

/-- Both steps of a success have succeeded. -/
theorem exists_of_bind_ok {m : Parse α} {f : α → Parse β} {b : β} (h : (m >>= f) s = .ok b s') :
    ∃ a s₁, m s = .ok a s₁ ∧ f a s₁ = .ok b s' := by
  change EStateM.bind m f s = _ at h
  unfold EStateM.bind at h
  split at h
  · exact ⟨_, _, by assumption, h⟩
  · cases h

/-- A mapped step gives the mapped value. -/
theorem map_ok {m : Parse α} {a : α} (f : α → β) (h : m s = .ok a s') :
    (f <$> m) s = .ok (f a) s' := by
  show EStateM.map f m s = _
  simp only [EStateM.map, h]

/-- A mapped step succeeds as the step does. -/
theorem exists_of_map_ok {m : Parse α} {f : α → β} {b : β} (h : (f <$> m) s = .ok b s') :
    ∃ a, m s = .ok a s' ∧ f a = b := by
  change EStateM.map f m s = _ at h
  unfold EStateM.map at h
  split at h
  · cases h
    exact ⟨_, by assumption, rfl⟩
  · cases h

/-- Looking at the next token leaves the state as it is. -/
theorem peek_bind (f : Token → Parse α) : (peek >>= f) s = f s.current s := rfl

theorem expect_eq (kind : TokenKind) (s : State) :
    expect kind s = if s.current.kind = kind then .ok s.current.loc { s with rest := s.rest.tail }
      else .error (s.missing kind) s := by
  unfold expect
  rw [peek_bind]
  split <;> rfl

theorem closeBracket_eq (kind : TokenKind) (s : State) :
    closeBracket kind s = if s.current.kind = kind then
        .ok s.current.loc { s with rest := s.rest.tail, brackets := s.brackets.tail }
      else .error (s.missing kind) s := by
  have hexpect := expect_eq kind s
  unfold closeBracket
  by_cases h : s.current.kind = kind
  · rw [if_pos h] at hexpect ⊢
    rw [bind_ok _ hexpect]
    rfl
  · rw [if_neg h] at hexpect ⊢
    rw [bind_error hexpect]

end Symbolic.Reader
