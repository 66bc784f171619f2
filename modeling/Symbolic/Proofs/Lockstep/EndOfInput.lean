import Symbolic.Proofs.Lockstep.Balance

/-!
# At the end of the input

Where the input ends, a reading step can do nothing but succeed without having read anything, or
fail because of the end. A failure there goes on record, and what is on record stays there.

## Key results

- `Paired.stuck`: a step at the end of the input
- `stuckExpr_expression`: an expression that is read there
-/

namespace Symbolic

/-- The error that the input ends where it does. -/
def SyntaxError.IsAboutEnd (stop : Location) (e : SyntaxError) : Prop :=
  e.isIncomplete = true ∨ ∃ kind, e = .unmatchedDelimiter stop kind

namespace Reader

open Parse

/-- Some failure on record is about the end of the input. -/
def FailedAtEnd (stop : Location) (failures : List (Occasion × SyntaxError)) : Prop :=
  ∃ failure ∈ failures, failure.2.IsAboutEnd stop

/-- The reader is at the end of the input. So far nothing that was tried there has failed. -/
structure AtEnd (stop : Location) (s : State) : Prop where
  rest : s.rest = []
  stop : s.stop = stop
  untried : ∀ failure ∈ s.failures, failure.1.remaining ≠ 0

/-- The reader is at the end of the input, or has failed there. -/
def Spent (stop : Location) (s : State) : Prop :=
  FailedAtEnd stop s.failures ∨ AtEnd stop s

/-- The outcomes of a step from a state that is spent. -/
inductive Stuck {α : Type} (stop : Location) (s : State) (before after : Level) :
    EStateM.Result SyntaxError State α → Prop where
  | idle (v : α) (level : after = before) : Stuck stop s before after (.ok v s)
  | ok {v : α} {s' : State} (failed : FailedAtEnd stop s'.failures) :
      Stuck stop s before after (.ok v s')
  | error {e : SyntaxError} {s' : State} (h : e.isRecoverable = false ∨ e.IsAboutEnd stop ∨
      FailedAtEnd stop s'.failures) : Stuck stop s before after (.error e s')

variable {expr : Precedence → Parse Expr} {expr' : Nat → Precedence → Parse Expr}
  {α β : Type} {s s' : State} {stop : Location} {before between after : Level}

/-! ## Errors at the end -/

/-- Where nothing is left, the input ends. -/
theorem current_of_nil (h : s.rest = []) : s.current.kind = .endOfInput := by
  simp only [State.current, h]
  rfl

/-- The end of the input is what is reported there. -/
theorem isAboutEnd_unexpected (hrest : s.rest = []) : s.unexpected.IsAboutEnd stop := by
  refine .inl ?_
  unfold State.unexpected State.faultAt State.current
  rw [hrest]
  cases s.brackets <;> rfl

/-- So it is when another token is missing. -/
theorem isAboutEnd_missing (hrest : s.rest = []) (hstop : s.stop = stop) (kind : TokenKind) :
    (s.missing kind).IsAboutEnd stop := by
  unfold State.missing State.faultAt State.current
  rw [hrest]
  cases s.brackets with
  | nil => exact .inr ⟨kind, by rw [← hstop]; rfl⟩
  | cons opening rest => exact .inl rfl

/-- A step fails about the end, or has failed there before. -/
theorem Spent.error (hs : Spent stop s) {e : SyntaxError}
    (he : s.rest = [] → s.stop = stop → e.IsAboutEnd stop) :
    Stuck (α := α) stop s before after (.error e s) := by
  rcases hs with hfailed | hend
  · exact .error (.inr (.inr hfailed))
  · exact .error (.inr (.inl (he hend.rest hend.stop)))

/-- A step that cannot be taken at the end of the input. -/
theorem Spent.failed_of_kind (hs : Spent stop s) (hkind : s.current.kind ≠ .endOfInput) :
    FailedAtEnd stop s.failures := by
  exact hs.resolve_right fun hend => hkind (current_of_nil hend.rest)

/-! ## Steps put together -/

/-- What is on record stays there, so nothing is left to idle for. -/
theorem Stuck.of_failed {s₁ : State} {before' after' : Level}
    {r : EStateM.Result SyntaxError State α} (hfailed : FailedAtEnd stop s₁.failures)
    (h : Stuck stop s₁ before' after' r) : Stuck stop s before after r := by
  rcases h with _ | hfailed' | herror
  · exact .ok hfailed
  · exact .ok hfailed'
  · exact .error herror

/-- What has failed at the end stays on record. -/
theorem Stuck.failed_of_ok {v : α} (h : Stuck stop s before after (.ok v s'))
    (hfailed : FailedAtEnd stop s.failures) : FailedAtEnd stop s'.failures := by
  cases h with
  | idle => exact hfailed
  | ok hfailed' => exact hfailed'

/-- A step that opens nothing does so within anything. -/
theorem Stuck.lift {level : Level} {r : EStateM.Result SyntaxError State α}
    (h : Stuck stop s .zero .zero r) : Stuck stop s level level r := by
  rcases h with _ | hfailed | herror
  · exact .idle _ rfl
  · exact .ok hfailed
  · exact .error herror

/-- A step goes on where the one before it got stuck. -/
theorem Stuck.bind {m : Parse α} {f : α → Parse β} (hs : Spent stop s)
    (hm : Stuck stop s before between (m s))
    (hf : ∀ a s₁, m s = .ok a s₁ → Spent stop s₁ → Stuck stop s₁ between after (f a s₁)) :
    Stuck stop s before after ((m >>= f) s) := by
  change Stuck stop s before after (EStateM.bind m f s)
  unfold EStateM.bind
  revert hm hf
  generalize m s = r
  rintro (⟨a, rfl⟩ | @⟨a, s₁, hfailed⟩ | herror) hf
  · exact hf a s rfl hs
  · exact .of_failed hfailed (hf a s₁ rfl (.inl hfailed))
  · exact .error herror

/-- An attempt at the end of the input. -/
theorem Stuck.attempt {m : Parse α} (hm : Stuck stop s before before (m s))
    (hfailed : ∀ e s', m s = .error e s' → e.isRecoverable = true →
      FailedAtEnd stop s'.failures) : Stuck stop s before before (m.attempt s) := by
  unfold Parse.attempt
  revert hm hfailed
  generalize m s = r
  rintro (⟨a, -⟩ | @⟨a, s₁, hs₁⟩ | @⟨e, s₁, herror⟩) hfailed
  · exact .idle _ rfl
  · exact .ok hs₁
  · -- an error that the attempt takes back has left a failure on record
    dsimp only
    split
    · rename_i he
      exact .ok (hfailed e s₁ rfl he)
    · exact .error herror

/-- Turns at the end of the input. -/
theorem Stuck.iterate {turn : α → Parse (Turn α β)}
    (hturn : ∀ a s, Spent stop s → Stuck stop s before before (turn a s)) (a : α)
    (hs : Spent stop s) : Stuck stop s before before (iterate turn a s) := by
  induction hn : s.rest.length using Nat.strongRecOn generalizing a s with
  | _ n ih =>
    subst hn
    have hstuck := hturn a s hs
    unfold Parse.iterate
    revert hstuck
    generalize turn a s = r
    rintro (⟨next, -⟩ | @⟨next, s₁, hfailed⟩ | herror)
    · cases next with
      | done b => exact .idle _ rfl
      | again a' =>
        -- a turn that does nothing is not followed by another
        dsimp only
        rw [if_neg (Nat.lt_irrefl _)]
        exact hs.error fun hrest _ => isAboutEnd_unexpected hrest
    · cases next with
      | done b => exact .ok hfailed
      | again a' =>
        dsimp only
        split
        · rename_i hlt
          exact .of_failed hfailed (ih _ hlt a' (.inl hfailed) rfl)
        · exact .error (.inr (.inr hfailed))
    · exact .error herror

/-- A token that is expected at the end is missing. -/
theorem Stuck.expect {kind : TokenKind} (hs : Spent stop s) (hkind : kind ≠ .endOfInput) :
    Stuck stop s before after (expect kind s) := by
  unfold Parse.expect
  rw [peek_bind]
  split
  · rename_i hcurrent
    exact .ok (hs.failed_of_kind (hcurrent ▸ hkind))
  · exact hs.error fun hrest hstop => isAboutEnd_missing hrest hstop kind

/-! ## Every step -/

/-- How reading an expression goes: besides, a failure goes on record. -/
structure StuckExpr (stop : Location) (expr : Precedence → Parse Expr) : Prop where
  stuck : ∀ p s, Spent stop s → Stuck stop s .zero .zero (expr p s)
  failed : ∀ p s e s', Spent stop s → expr p s = .error e s' → e.isRecoverable = true →
    FailedAtEnd stop s'.failures

/-- A bracket is not the end of the input. -/
theorem ne_endOfInput_of_balance {kind : TokenKind} {n : Int} (h : kind.balance = n)
    (hn : n ≠ 0) : kind ≠ .endOfInput := by
  rintro rfl
  exact hn h.symm

/-- Every step of the reader is stuck at the end of the input. -/
theorem Paired.stuck {place : Place} {m : Parse α} {run : Nat → Parse α}
    (hexpr : StuckExpr stop expr) (h : Paired expr expr' place before after m run) :
    ∀ {s : State}, place.Holds s → Spent stop s → Stuck stop s before after (m s) := by
  -- induction on how the step is put together: whatever has to read a token fails about the end
  induction h with
  | pure a => exact fun _ _ => .idle a rfl
  | bind first then_ ih ih' =>
    exact fun hplace hs => .bind hs (ih hplace hs) fun a s₁ _ hs₁ => ih' a trivial hs₁
  | @peek β place before after f next then_ ends ih =>
    intro s hplace hs
    exact ih s.current (place.allows_of_holds hplace) rfl hs
  | advance plain =>
    exact fun hplace hs => .ok (hs.failed_of_kind (hplace ▸ notEnd_of_isPlain plain))
  | openBracket opens =>
    intro s hplace hs
    -- a bracket is not the end, so there is a failure on record
    have hkind := ne_endOfInput_of_balance (balance_of_closer? opens).1 (by decide)
    exact .ok (hs.failed_of_kind (hplace ▸ hkind))
  | openInner opens =>
    intro s hplace hs
    have hkind := ne_endOfInput_of_balance (balance_of_closer? opens).1 (by decide)
    exact .ok (hs.failed_of_kind (hplace ▸ hkind))
  | expect plain notEnd => exact fun _ hs => .expect hs (notEnd_of_isPlain plain)
  | closeInner closes =>
    exact fun _ hs => .expect hs (ne_endOfInput_of_balance closes (by decide))
  | @closeBracket place level kind closes =>
    intro s _ hs
    have hkind := ne_endOfInput_of_balance closes (by decide)
    have hexpect : Stuck stop s (level.opened kind) level (Parse.expect kind s) := .expect hs hkind
    refine .bind hs hexpect fun loc s₁ hexpect _ => ?_
    obtain ⟨hcurrent, rfl⟩ := expect_eq_ok hexpect
    exact .ok (hs.failed_of_kind (hcurrent ▸ hkind))
  | unexpected => exact fun _ hs => hs.error fun hrest _ => isAboutEnd_unexpected hrest
  | missing kind =>
    exact fun _ hs => hs.error fun hrest hstop => isAboutEnd_missing hrest hstop kind
  | throw notEnd aboutToken =>
    exact fun hplace hs => .error (.inr (.inr (hs.failed_of_kind (hplace ▸ notEnd))))
  | @ofResult _ _ _ _ _ result f _ notEnd aboutToken then_ ih =>
    intro s hplace hs
    cases result with
    | error e => exact .error (.inr (.inr (hs.failed_of_kind (hplace ▸ notEnd))))
    | ok a => exact ih a hplace hs
  | expr p => exact fun _ hs => (hexpr.stuck p _ hs).lift
  | attempt p =>
    exact fun _ hs => .attempt (hexpr.stuck p _ hs) fun e s' => hexpr.failed p _ e s' hs
  | attemptAfter plain p =>
    intro s hplace hs
    have hfailed := hs.failed_of_kind (hplace ▸ notEnd_of_isPlain plain)
    have hadvance : Stuck stop s .zero .zero (Parse.advance s) := .ok hfailed
    exact .attempt (.bind hs hadvance fun _ s₁ _ => hexpr.stuck p s₁)
      fun e s' => hexpr.failed p _ e s' (.inl hfailed)
  | iterate each a ih => exact fun _ hs => .iterate (fun a s hs => ih a trivial hs) a hs
  | atFinalEnd onEnd otherwise ends ih ih' =>
    intro s _ hs
    rw [atFinalEnd_bind]
    cases hfinal : (s.current.kind == .endOfInput && s.brackets.isEmpty) with
    | true => exact ih trivial hs
    | false => exact ih' (notFinal_of_eq_false hfinal) hs
  | @symbolOperand _ _ p strict g =>
    intro s _ hs
    rw [peek_bind]
    refine .bind hs (hexpr.stuck p s hs) fun operand s₁ hoperand _ => ?_
    unfold symbolOnly
    split
    · have hstuck := hexpr.stuck p s hs
      rw [hoperand] at hstuck
      -- the error is about the token that the operand starts with
      cases hstuck with
      | idle =>
        exact hs.error fun hrest _ => .inl (by rw [current_of_nil hrest]; rfl)
      | ok hfailed => exact .error (.inr (.inr hfailed))
    · exact .idle _ rfl

/-! ## Expressions -/

/-- A step with a memory fails as the memory says, or as the step does. -/
theorem remember_error {p : Precedence} {step : Parse Expr} {e : SyntaxError}
    (h : remember p step s = .error e s') :
    s.failures.lookup (s.occasion p) = some e ∧ s' = s ∨
      ∃ s₁, step s = .error e s₁ ∧
        s' = if e.isRecoverable then { s₁ with failures := (s.occasion p, e) :: s₁.failures }
          else s₁ := by
  unfold remember at h
  split at h
  · rename_i hlookup
    cases h
    -- the memory answers
    exact .inl ⟨hlookup, rfl⟩
  · split at h
    · cases h
    · rename_i hstep
      split at h
      · rename_i he
        cases h
        exact .inr ⟨_, hstep, by rw [if_pos he]⟩
      · rename_i he
        cases h
        exact .inr ⟨_, hstep, by rw [if_neg he]⟩

/-- Expressions are stuck at the end of the input, with their failures on record. -/
theorem stuckExpr_remember {step : Precedence → Parse Expr}
    (hstep : ∀ p s, Spent stop s → Stuck stop s .zero .zero (step p s)) :
    StuckExpr stop fun p => remember p (step p) := by
  have hfailed : ∀ p s e s', Spent stop s → remember p (step p) s = .error e s' →
      e.isRecoverable = true → FailedAtEnd stop s'.failures := by
    intro p s e s' hs h he
    rcases remember_error h with ⟨hlookup, rfl⟩ | ⟨s₁, herror, rfl⟩
    · rcases hs with hfailed | hend
      · exact hfailed
      · -- nothing has been tried here before
        refine absurd ?_ (hend.untried _ (mem_of_lookup hlookup))
        simp only [State.occasion, hend.rest, List.length_nil]
    · have hstuck := hstep p s hs
      rw [herror] at hstuck
      rw [if_pos he]
      cases hstuck with
      | error herror =>
        rcases herror with hfinal | habout | ⟨failure, hmem, h⟩
        · rw [he] at hfinal
          cases hfinal
        · exact ⟨_, List.mem_cons_self, habout⟩
        · exact ⟨failure, List.mem_cons_of_mem _ hmem, h⟩
  refine ⟨fun p s hs => ?_, hfailed⟩
  cases h : remember p (step p) s with
  | ok v s' => exact eq_ok_of_remember h ▸ hstep p s hs
  | error e s' =>
    cases he : e.isRecoverable with
    | false => exact .error (.inl he)
    | true => exact .error (.inr (.inr (hfailed p s e s' hs h he)))

/-- No expression is read at the end of the input. -/
theorem stuckExpr_expression (room : Nat) : StuckExpr stop (expression .standard room) := by
  induction room with
  | zero =>
    refine ⟨fun p s _ => .error (.inl rfl), fun p s e s' _ h he => ?_⟩
    cases h
    cases he
  | succ room ih =>
    refine stuckExpr_remember fun p s hs => ?_
    exact (paired_chain_self room p).stuck ih trivial hs

end Reader

end Symbolic
