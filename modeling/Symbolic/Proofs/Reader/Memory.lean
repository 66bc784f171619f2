import Mathlib.Control.Monad.Basic
import Symbolic.Proofs.Reader.Rules

/-!
# The memory of failures changes no result

The reader remembers a failure by what remains of the input, the precedence, the number of open
brackets and the innermost of them. This decides how reading an expression ends: no rule looks
further out than the innermost bracket, and the room for nesting decides only whether reading
runs out of it. So a failure that is remembered is the one that reading again would give.

## Key results

- `follows_forgetful`: more room changes no outcome but running out of room
- `Recorded`: what the memory of failures says about the reader without memory
- `follows_expression`: the reader follows the reader without memory
-/

namespace Symbolic.Reader

open Parse

variable {scene : Scene} {table : OperatorTable} {tokens : List Token} {stop : Location}

/-! ## Room -/

theorem follows_forgetful (table : OperatorTable) {room room' : Nat} (h : room ≤ room')
    (p : Precedence) :
    Follows scene 0 0 (Forgetful.expression table room p)
      (Forgetful.expression table room' p) := by
  induction room generalizing room' p with
  | zero =>
    -- without room the first reader asks for nothing
    exact ⟨fun _ _ _ => .final rfl⟩
  | succ room ih =>
    obtain ⟨room', rfl⟩ : ∃ n, room' = n + 1 := ⟨room' - 1, by omega⟩
    exact follows_chain (fun q => ih (by omega) q) p

/-! ## The memory -/

/-- Every failure in the memory is recoverable, and it is how reading an expression ends, given
    enough room, on every occasion that the memory would find it for. -/
def Recorded (table : OperatorTable) (tokens : List Token) (stop : Location)
    (failures : List (Occasion × SyntaxError)) : Prop :=
  ∀ occasion e, (occasion, e) ∈ failures → e.isRecoverable = true ∧
    ∀ s : State, s.rest <:+ tokens → s.stop = stop →
      s.occasion occasion.precedence = occasion →
      ∃ room s', Forgetful.expression table room occasion.precedence s = .error e s'

/-- The scene in which the second reader remembers what is so. -/
def memoryScene (table : OperatorTable) (tokens : List Token) (stop : Location) : Scene :=
  .innermost tokens stop (Recorded table tokens stop)

theorem recorded_nil : Recorded table tokens stop [] :=
  fun _ _ h => nomatch h

/-- An occasion determines everything that a reader without memory goes by. -/
theorem alike_of_occasion {p : Precedence} {s t : State} (hs : s.rest <:+ tokens)
    (ht : t.rest <:+ tokens) (hstop : s.stop = stop) (hstop' : t.stop = stop)
    (h : s.occasion p = t.occasion p) :
    s.brackets.head? = t.brackets.head? ∧
      Alike (.innermost tokens stop fun _ => True) [] s.brackets t.brackets s t := by
  simp only [State.occasion, Occasion.mk.injEq] at h
  obtain ⟨hlength, -, -, hhead⟩ := h
  -- two ends of one sequence of tokens are the same if they have the same length
  have hrest : t.rest = s.rest := by
    obtain ⟨a, ha⟩ := hs
    obtain ⟨b, hb⟩ := ht
    exact (List.append_inj_right' (ha.trans hb.symm) hlength).symm
  exact ⟨hhead, ⟨hrest, hs, hstop, hstop', rfl, rfl, trivial⟩⟩

/-- A failure may be added to the memory on the occasion on which it arises. -/
theorem recorded_cons {room : Nat} {p : Precedence} {s s' : State} {e : SyntaxError}
    {failures : List (Occasion × SyntaxError)} (h : Recorded table tokens stop failures)
    (hs : s.rest <:+ tokens) (hstop : s.stop = stop) (he : e.isRecoverable = true)
    (herror : Forgetful.expression table room p s = .error e s') :
    Recorded table tokens stop ((s.occasion p, e) :: failures) := by
  intro occasion e' hmem
  rcases List.mem_cons.mp hmem with hnew | hold
  · -- the same occasion comes with the same outcome
    obtain ⟨rfl, rfl⟩ := Prod.mk.injEq .. ▸ hnew
    refine ⟨he, fun t ht hstop' hoccasion => ?_⟩
    obtain ⟨hhead, halike⟩ := alike_of_occasion hs ht hstop hstop' hoccasion.symm
    obtain ⟨t', ht'⟩ :=
      (follows_forgetful table (Nat.le_refl room) p).error_of_error hhead halike he herror
    exact ⟨room, t', ht'⟩
  · exact h occasion e' hold

theorem mem_of_lookup {failures : List (Occasion × SyntaxError)} {occasion : Occasion}
    {e : SyntaxError} (h : failures.lookup occasion = some e) : (occasion, e) ∈ failures := by
  obtain ⟨before, after, rfl, -⟩ := List.lookup_eq_some_iff.mp h
  simp

/-- A failure in the memory is the one that reading again gives, unless it runs out of room. -/
theorem meets_of_recorded {room : Nat} {p : Precedence} {inner outer outer' : List Location}
    {s t : State} {e : SyntaxError} (hinner : inner.length = 0)
    (hhead : outer.head? = outer'.head?)
    (halike : Alike (memoryScene table tokens stop) inner outer outer' s t)
    (hmem : (t.occasion p, e) ∈ t.failures) :
    Meets (memoryScene table tokens stop) outer outer' 0
      (Forgetful.expression table room p s) (.error e t) := by
  obtain rfl := List.length_eq_zero_iff.mp hinner
  obtain ⟨he, hfails⟩ := halike.known _ _ hmem
  obtain ⟨room', t', ht⟩ := hfails t (halike.rest ▸ halike.suffix) halike.stop' rfl
  -- with room for both readings, `t` has to end as `s` does and also in the remembered failure
  obtain ⟨t₁, ht₁⟩ := (follows_forgetful table (Nat.le_max_right room room') p).error_of_error rfl
    (halike.right halike.known) he ht
  have hmeets := (follows_forgetful table (Nat.le_max_left room room') p).meets rfl hhead halike
  rw [ht₁] at hmeets
  revert hmeets
  generalize Forgetful.expression table room p s = r
  rintro (_ | ⟨hstop, -, hbrackets, -, -⟩ | hfinal)
  · exact .error hstop halike.stop' hbrackets halike.brackets' halike.known
  · exact .final hfinal

/-- Looking in the memory first, and keeping a record of a failure, changes nothing. -/
theorem follows_remember {room : Nat} {p : Precedence} {step : Parse Expr}
    (h : Follows (memoryScene table tokens stop) 0 0 (Forgetful.expression table room p) step) :
    Follows (memoryScene table tokens stop) 0 0 (Forgetful.expression table room p)
      (remember p step) := by
  refine ⟨fun {inner outer outer' s t} hinner hhead halike => ?_⟩
  unfold remember
  split
  · -- the memory answers in place of the step
    rename_i e hlookup
    exact meets_of_recorded hinner hhead halike (mem_of_lookup hlookup)
  · obtain rfl := List.length_eq_zero_iff.mp hinner
    have hmeets := h.meets rfl hhead halike
    -- what goes on record is how the reader without memory ends at `t` itself
    have hself : ∀ e s', e.isRecoverable = true →
        Forgetful.expression table room p s = .error e s' →
        ∃ t', Forgetful.expression table room p t = .error e t' :=
      fun e s' => (follows_forgetful table (Nat.le_refl room) p).error_of_error hhead halike
    revert hmeets hself
    generalize Forgetful.expression table room p s = r, step t = r'
    rintro (⟨alike, length⟩ | ⟨hstop, hstop', hbrackets, hbrackets', hknown⟩ | hfinal) hself
    · exact .ok alike length
    · dsimp only
      split
      · -- a failure that goes on record
        rename_i he
        obtain ⟨t₁, ht₁⟩ := hself _ _ he rfl
        exact .error hstop hstop' hbrackets hbrackets'
          (recorded_cons hknown (halike.rest ▸ halike.suffix) halike.stop' he ht₁)
      · exact .error hstop hstop' hbrackets hbrackets' hknown
    · exact .final hfinal

theorem follows_expression (room : Nat) (p : Precedence) :
    Follows (memoryScene table tokens stop) 0 0 (Forgetful.expression table room p)
      (expression table room p) := by
  induction room generalizing p with
  | zero => exact ⟨fun _ _ _ => .final rfl⟩
  | succ room ih => exact follows_remember (follows_chain ih p)

/-! ## Whole inputs -/

theorem alike_ofTokens (table : OperatorTable) (tokens : List Token) :
    Alike (memoryScene table (State.ofTokens tokens).rest (State.ofTokens tokens).stop) [] [] []
      (.ofTokens tokens) (.ofTokens tokens) where
  rest := rfl
  suffix := List.suffix_refl _
  stop := rfl
  stop' := rfl
  brackets := rfl
  brackets' := rfl
  known := recorded_nil

/-- A reader without memory and the reader end with the same result, unless the former runs out
    of room. -/
theorem readTokens_eq_forgetful {settings : Settings} {tokens : List Token}
    {result : Except SyntaxError (Option Expr)}
    (h : Forgetful.readTokens settings tokens = result)
    (hresult : ∀ e, result = .error e → e.isRecoverable = true) :
    readTokens settings tokens = result := by
  -- both start at the same state, with nothing remembered
  have hmeets := (follows_program (follows_expression settings.limit)).meets rfl rfl
    (alike_ofTokens settings.table tokens)
  subst h
  unfold Forgetful.readTokens Forgetful.program at hresult ⊢
  unfold readTokens run program
  revert hmeets hresult
  generalize iterate (programTurn _) [] _ = r, iterate (programTurn _) [] _ = r'
  rintro (_ | _ | hfinal) hresult
  · rfl
  · rfl
  · simpa [hfinal] using hresult _ rfl

/-- What a reader without memory ends with in some room, it ends with in more room. -/
theorem forgetful_readTokens_of_le {limit limit' : Nat} {tokens : List Token}
    {result : Except SyntaxError (Option Expr)} (hle : limit ≤ limit')
    (h : Forgetful.readTokens ⟨table, limit⟩ tokens = result)
    (hresult : ∀ e, result = .error e → e.isRecoverable = true) :
    Forgetful.readTokens ⟨table, limit'⟩ tokens = result := by
  have hmeets := (follows_program (follows_forgetful table hle)).meets rfl rfl
    (alike_ofTokens table tokens)
  subst h
  unfold Forgetful.readTokens Forgetful.program at hresult ⊢
  revert hmeets hresult
  generalize iterate (programTurn (Forgetful.expression table limit)) [] _ = r,
    iterate (programTurn (Forgetful.expression table limit')) [] _ = r'
  rintro (_ | _ | hfinal) hresult
  · rfl
  · rfl
  · simpa [hfinal] using hresult _ rfl

/-- In all that much room the reader ends with it, too. -/
theorem readTokens_of_le {limit limit' : Nat} {tokens : List Token}
    {result : Except SyntaxError (Option Expr)} (hle : limit ≤ limit')
    (h : Forgetful.readTokens ⟨table, limit⟩ tokens = result)
    (hresult : ∀ e, result = .error e → e.isRecoverable = true) :
    readTokens ⟨table, limit'⟩ tokens = result :=
  readTokens_eq_forgetful (forgetful_readTokens_of_le hle h hresult) hresult

/-- Whatever a reader without memory ends with, the reader ends with just that, unless the former
    runs out of room. -/
theorem readTokens_eq_of_roomy (settings : Settings) (tokens : List Token)
    (h : ∀ loc, Forgetful.readTokens settings tokens ≠ .error (.recursionLimitExceeded loc)) :
    readTokens settings tokens = Forgetful.readTokens settings tokens := by
  refine readTokens_eq_forgetful rfl fun e he => ?_
  -- running out of room is the only error that is not recoverable
  cases e with
  | recursionLimitExceeded loc => exact absurd he (h loc)
  | _ => rfl

/-- The tokens of `f[a;g[b;`, which leave two brackets open. What stands after each semicolon is
    read as its right side, which fails, and then as the next factor of a product. -/
def openCalls : List Token :=
  [⟨.symbol, "f", .zero⟩, ⟨.leftBracket, "[", .zero⟩, ⟨.symbol, "a", .zero⟩,
    ⟨.semicolon, ";", .zero⟩, ⟨.symbol, "g", .zero⟩, ⟨.leftBracket, "[", .zero⟩,
    ⟨.symbol, "b", .zero⟩, ⟨.semicolon, ";", .zero⟩]

theorem readTokens_openCalls :
    (∀ loc, Forgetful.readTokens {} openCalls ≠ .error (.recursionLimitExceeded loc)) ∧
      readTokens {} openCalls = Forgetful.readTokens {} openCalls := by
  have h : Forgetful.readTokens {} openCalls = .error (.unclosedBracket .zero) := by
    decide +kernel
  have hroomy : ∀ loc,
      Forgetful.readTokens {} openCalls ≠ .error (.recursionLimitExceeded loc) := by
    intro loc heq
    cases h.symm.trans heq
  exact ⟨hroomy, readTokens_eq_of_roomy {} openCalls hroomy⟩

end Symbolic.Reader
