import Symbolic.Proofs.Reader.PairedRules
import Symbolic.Proofs.Trees.SideBySide

/-!
# Brackets are balanced

A step that succeeds passes over as many closing brackets as opening ones, but for those that it is
to open or to close. So two readers of the same tokens stay at the same balance.

## Key results

- `Paired.excess_add`: what a step does to the balance of the tokens that remain
- `keepsExcess_expression`: an expression is balanced
- `current_of_program`: what is accepted is read up to the end
-/

namespace Symbolic

namespace Reader

open Parse

variable {expr : Precedence → Parse Expr} {expr' : Nat → Precedence → Parse Expr}
  {α β : Type} {s s' : State}

/-! ## Steps that succeed -/

/-- An attempt succeeds as its step does, or leaves the tokens as they were. -/
theorem attempt_ok {m : Parse α} {v? : Option α} (h : m.attempt s = .ok v? s') :
    (∃ v, v? = some v ∧ m s = .ok v s') ∨ v? = none ∧ s'.rest = s.rest := by
  unfold Parse.attempt at h
  split at h
  · cases h
    exact .inl ⟨_, rfl, by assumption⟩
  · split at h
    · cases h
      exact .inr ⟨rfl, rfl⟩
    · cases h

/-- What each turn of a repetition preserves, all of them do. -/
theorem iterate_ok {turn : α → Parse (Turn α β)} {I : State → Prop}
    (hturn : ∀ a s outcome s', I s → turn a s = .ok outcome s' → I s') {a : α} {b : β}
    (hs : I s) (h : iterate turn a s = .ok b s') : I s' := by
  -- induction on what remains of the input, which every turn but the last makes shorter
  induction hn : s.rest.length using Nat.strongRecOn generalizing a s with
  | _ n ih =>
    subst hn
    rw [iterate] at h
    split at h
    · cases h
    · rename_i hdone
      cases h
      exact hturn a s _ _ hs hdone
    · rename_i hagain
      split at h
      · rename_i hlt
        exact ih _ hlt (hturn a s _ _ hs hagain) h rfl
      · cases h

/-! ## Balance -/

/-- The step leaves the balance of the tokens that remain as it is. -/
def KeepsExcess (m : Parse α) : Prop :=
  ∀ s v s', m s = .ok v s' → excess s.rest = excess s'.rest

/-- The end of the input counts for nothing. -/
theorem excess_tail {n : Int} (h : s.current.kind.balance = n) :
    excess s.rest = n + excess s.rest.tail := by
  subst h
  unfold State.current
  cases s.rest with
  | nil => rfl
  | cons t rest => exact excess_cons t rest

/-- A token that is no bracket balances nothing. -/
theorem balance_of_isPlain {kind : TokenKind} (h : kind.isPlain = true) : kind.balance = 0 := by
  unfold TokenKind.isPlain at h
  simp only [Bool.and_eq_true, beq_iff_eq] at h
  exact h.1

/-- A token that is expected is passed over. -/
theorem expect_eq_ok {kind : TokenKind} {loc : Location} (h : expect kind s = .ok loc s') :
    s.current.kind = kind ∧ s' = { s with rest := s.rest.tail } := by
  unfold expect at h
  rw [peek_bind] at h
  split at h
  · rename_i hkind
    cases h
    exact ⟨hkind, rfl⟩
  · cases h

theorem atFinalEnd_bind (f : Bool → Parse α) :
    (atFinalEnd >>= f) s = f (s.current.kind == .endOfInput && s.brackets.isEmpty) s := rfl

/-- Where the input does not end, more is to come. -/
theorem notFinal_of_eq_false (h : (s.current.kind == .endOfInput && s.brackets.isEmpty) = false) :
    Place.notFinal.Holds s := by
  intro hend hnil
  rw [hend, hnil] at h
  cases h

/-- Accepting an operand moves nothing. -/
theorem eq_of_symbolOnly_ok {strict : Bool} {first : Token} {operand : Expr} {v w : α}
    (h : symbolOnly strict first operand v s = .ok w s') : s' = s := by
  unfold symbolOnly at h
  split at h <;> cases h
  rfl

/-- A step that succeeds and opens as many brackets as it closes keeps the balance. -/
theorem Paired.excess_add {place : Place} {before after : Level} {m : Parse α}
    {run : Nat → Parse α} (hexpr : ∀ p, KeepsExcess (expr p))
    (h : Paired expr expr' place before after m run) : ∀ {s : State} {v : α} {s' : State},
    place.Holds s → m s = .ok v s' →
      excess s.rest + after.total = excess s'.rest + before.total := by
  -- induction on how the step is put together: tokens that are no brackets count for nothing, and
  -- each rule for a bracket moves the level by as much as its token moves the excess
  induction h with
  | pure a =>
    intro s v s' _ hm
    cases hm
    rfl
  | bind first then_ ih ih' =>
    intro s v s' hplace hm
    obtain ⟨a, s₁, hfirst, hm⟩ := exists_of_bind_ok hm
    have h₁ := ih hplace hfirst
    have h₂ := ih' a trivial hm
    omega
  | @peek β place before after f next then_ ends ih =>
    intro s v s' hplace hm
    exact ih s.current (place.allows_of_holds hplace) rfl hm
  | advance plain =>
    intro s v s' hplace hm
    cases hm
    have htail := excess_tail (s := s) (hplace ▸ balance_of_isPlain plain)
    simp only [htail, Int.zero_add]
  | openBracket opens =>
    intro s v s' hplace hm
    cases hm
    -- an opening bracket has to be closed later, whether it is on the stack or not
    have htail := excess_tail (s := s) (hplace ▸ (balance_of_closer? opens).1)
    simp only [Level.total_opened]
    omega
  | openInner opens =>
    intro s v s' hplace hm
    cases hm
    have htail := excess_tail (s := s) (hplace ▸ (balance_of_closer? opens).1)
    simp only [Level.total_openedInner]
    omega
  | expect plain notEnd =>
    intro s v s' _ hm
    obtain ⟨hkind, rfl⟩ := expect_eq_ok hm
    have htail := excess_tail (hkind ▸ balance_of_isPlain plain)
    simp only [htail, Int.zero_add]
  | closeInner closes =>
    intro s v s' _ hm
    obtain ⟨hkind, rfl⟩ := expect_eq_ok hm
    -- a closing bracket takes back what its opening one has added
    have htail := excess_tail (hkind ▸ closes)
    simp only [Level.total_openedInner]
    omega
  | closeBracket closes =>
    intro s v s' _ hm
    unfold Parse.closeBracket at hm
    obtain ⟨loc, s₁, hexpect, hm⟩ := exists_of_bind_ok hm
    obtain ⟨hkind, rfl⟩ := expect_eq_ok hexpect
    cases hm
    have htail := excess_tail (hkind ▸ closes)
    simp only [Level.total_opened]
    omega
  | unexpected =>
    -- a step that fails has no success to speak of
    intro s v s' _ hm
    cases hm
  | missing kind =>
    intro s v s' _ hm
    cases hm
  | throw notEnd aboutToken =>
    intro s v s' _ hm
    cases hm
  | @ofResult _ _ _ _ _ result f _ notEnd aboutToken then_ ih =>
    intro s v s' hplace hm
    cases result with
    | error e => cases hm
    | ok a => exact ih a hplace hm
  | expr p =>
    -- an operand is balanced, by what is known of expressions
    intro s v s' _ hm
    rw [hexpr p s v s' hm]
  | attempt p =>
    -- an attempt that fails has its tokens given back
    intro s v s' _ hm
    rcases attempt_ok hm with ⟨e, -, he⟩ | ⟨-, hrest⟩
    · rw [hexpr p s e s' he]
    · rw [hrest]
  | attemptAfter plain p =>
    intro s v s' hplace hm
    rcases attempt_ok hm with ⟨e, -, he⟩ | ⟨-, hrest⟩
    · have htail := excess_tail (s := s) (hplace ▸ balance_of_isPlain plain)
      rw [htail, Int.zero_add, hexpr p _ e s' he]
    · rw [hrest]
  | iterate each a ih =>
    intro s v s' _ hm
    -- each turn of a loop keeps the excess that there was at first
    have hkeeps := iterate_ok (I := fun s₁ => excess s.rest = excess s₁.rest)
      (fun a s₁ outcome s₂ hs₁ hturn => by
        have := ih a trivial hturn
        omega) rfl hm
    rw [hkeeps]
  | atFinalEnd onEnd otherwise ends ih ih' =>
    intro s v s' _ hm
    rw [atFinalEnd_bind] at hm
    cases hfinal : (s.current.kind == .endOfInput && s.brackets.isEmpty) with
    | true => exact ih trivial (hfinal ▸ hm)
    | false => exact ih' (notFinal_of_eq_false hfinal) (hfinal ▸ hm)
  | symbolOperand p strict g =>
    intro s v s' _ hm
    rw [peek_bind] at hm
    -- looking at the operand moves nothing
    obtain ⟨operand, s₁, hoperand, hm⟩ := exists_of_bind_ok hm
    rw [hexpr p s operand s₁ hoperand, eq_of_symbolOnly_ok hm]

/-- An expression closes as many brackets as it opens. -/
theorem keepsExcess_expression (room : Nat) (p : Precedence) :
    KeepsExcess (expression .standard room p) := by
  induction room generalizing p with
  | zero =>
    intro s v s' h
    cases h
  | succ room ih =>
    intro s v s' h
    have hchain := (paired_chain_self room p).excess_add ih trivial (eq_ok_of_remember h)
    simpa using hchain

/-- What is accepted is read up to the end of the input. -/
theorem current_of_program {exprs : List Expr} {e? : Option Expr}
    (h : iterate (programTurn expr) exprs s = .ok e? s') : s'.current.kind = .endOfInput := by
  obtain ⟨exprs', s₁, hdone⟩ := exists_done_of_iterate h
  unfold programTurn at hdone
  rw [peek_bind] at hdone
  split at hdone
  · cases hdone
    assumption
  · obtain ⟨e, s₂, -, hdone⟩ := exists_of_bind_ok hdone
    cases hdone

end Reader

end Symbolic
