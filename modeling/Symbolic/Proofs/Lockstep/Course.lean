import Mathlib.Order.Filter.AtTopBot.Basic
import Symbolic.Proofs.Lockstep.EndOfInput

/-!
# Two readers in lockstep

The first reader reads some tokens up to the end of its input. The second, which keeps no record of
failures and has as much room for nesting as it needs, reads the same tokens with others after
them, within more brackets. As long as the first one is within its input, the two do the same.
What happens at the end of it depends on what the second reader finds there: the end of its own
input, the end of an element, or anything at all.

## Key results

- `Course`, `Sync`: two readers, and when they are in step
- `Outcome`: how the two can come out of a step
- `Outcome.bind`, `Outcome.attempt`, `Outcome.iterate`: how outcomes are put together
-/

namespace Symbolic.Reader

open Parse Filter

variable {α β : Type}

/-! ## The readers -/

/-- What the second reader finds where the input of the first one ends. -/
inductive Ending where
  /-- The end of its input, with no more brackets than the first reader has. -/
  | closed
  /-- A token that ends an element. -/
  | stopped
  /-- Any token, or none. -/
  | loose
deriving DecidableEq

/-- Two readers: the tokens of the first and what the second finds after them, the ends of both
    inputs, and the brackets around the second. -/
structure Course where
  tokens : List Token
  after : List Token
  stop : Location
  stop' : Location
  around : List Location
  ending : Ending
  endFree : ∀ t ∈ tokens, t.kind ≠ .endOfInput
  closed : ending = .closed → after = [] ∧ around = [] ∧ stop' = stop
  stopped : ending = .stopped → ∃ t ∈ after.head?, t.kind ∈ elementEnds

/-- The brackets around a step: those that the first reader keeps track of, and how many there are
    together with second brackets of parts. -/
structure Frame where
  brackets : List Location
  total : Nat
  length_le : brackets.length ≤ total

variable {course : Course} {frame : Frame} {level before between after : Level} {s s' t t' : State}

/-! ## What the first reader remembers -/

/-- The second reader stands where the first one does. -/
structure Sited (course : Course) (s t : State) : Prop where
  suffix : s.rest <:+ course.tokens
  rest : t.rest = s.rest ++ course.after
  stop' : t.stop = course.stop'
  brackets' : t.brackets = s.brackets ++ course.around
  forgetful : t.failures = []

/-- Given enough room, no expression can be read here. -/
def Fails (p : Precedence) (t : State) : Prop :=
  ∃ e, e.isRecoverable = true ∧
    ∀ᶠ room in atTop, ∃ t', Forgetful.expression .standard room p t = .error e t'

/-- What the first reader remembers to have failed fails for the second one, too. Where anything
    can follow, it did not fail at the end of the first input. -/
structure Noted (course : Course) (failure : Occasion × SyntaxError) : Prop where
  recoverable : failure.2.isRecoverable = true
  before : course.ending = .loose → failure.1.remaining ≠ 0
  fails : ∀ s t, Sited course s t → s.occasion failure.1.precedence = failure.1 →
    Fails failure.1.precedence t

/-- All that the first reader remembers is so. -/
def Known (course : Course) (failures : List (Occasion × SyntaxError)) : Prop :=
  ∀ failure ∈ failures, Noted course failure

/-! ## Readers in step -/

/-- The first reader is within its input and the brackets around it. -/
structure Left (course : Course) (frame : Frame) (s : State) : Prop where
  stop : s.stop = course.stop
  outer : frame.brackets <:+ s.brackets
  known : Known course s.failures

/-- So is the second one. -/
structure Right (course : Course) (frame : Frame) (t : State) : Prop where
  stop' : t.stop = course.stop'
  outer' : frame.brackets ++ course.around <:+ t.brackets
  forgetful : t.failures = []

/-- The readers stand at the same place, with the brackets of the level open within those around.
    If the first input is an element, it is balanced. -/
structure Aligned (course : Course) (frame : Frame) (level : Level) (s t : State) : Prop
    extends Sited course s t, Left course frame s where
  length : s.brackets.length = level.brackets + frame.brackets.length
  balanced : course.ending = .stopped → excess s.rest = level.total + frame.total

/-- The readers are in step: where anything can follow, this is before the end of the first
    input. -/
structure Sync (course : Course) (frame : Frame) (level : Level) (s t : State) : Prop
    extends Aligned course frame level s t where
  live : course.ending = .loose → s.rest ≠ []

/-- The first reader has come to its end, after a step that left its brackets in order. -/
structure Ended (course : Course) (frame : Frame) (level : Level) (s : State) : Prop
    extends Left course frame s where
  loose : course.ending = .loose
  rest : s.rest = []
  length : s.brackets.length = level.brackets + frame.brackets.length

/-- A reader that has come to the end of its input is spent. -/
theorem Ended.spent (h : Ended course frame level s) : Spent course.stop s :=
  .inr ⟨h.rest, h.stop, fun failure hmem => (h.known failure hmem).before h.loose⟩

/-- The first reader has come to its end, or has failed there. -/
def Lost (course : Course) (frame : Frame) (level : Level) (s : State) : Prop :=
  Ended course frame level s ∨ FailedAtEnd course.stop s.failures

/-- So is one that is lost. -/
theorem Lost.spent (h : Lost course frame level s) : Spent course.stop s :=
  h.elim Ended.spent .inl

/-- The outcomes of a step that the two readers take in step. The second one has any room. -/
inductive Outcome (course : Course) (frame : Frame) (level : Level) :
    EStateM.Result SyntaxError State α → (Nat → EStateM.Result SyntaxError State α) → Prop where
  /-- Both succeed, and are in step. -/
  | ok {v s' t' results} (sync : Sync course frame level s' t')
      (h : ∀ᶠ room in atTop, results room = .ok v t') :
      Outcome course frame level (.ok v s') results
  /-- Both fail, so that something else can be tried. -/
  | error {e s' e' results} (recoverable : e.isRecoverable = true)
      (recoverable' : e'.isRecoverable = true) (left : Left course frame s')
      (h : ∀ᶠ room in atTop, ∃ t', results room = .error e' t' ∧ Right course frame t') :
      Outcome course frame level (.error e s') results
  /-- The first runs out of room. -/
  | final {e s' results} (h : e.isRecoverable = false) :
      Outcome course frame level (.error e s') results
  /-- The second one never has enough room. -/
  | dead {result results} (loose : course.ending = .loose)
      (h : ∀ᶠ room in atTop, ∃ e t', results room = .error e t' ∧ e.isRecoverable = false) :
      Outcome course frame level result results
  /-- The first succeeds at its end, past which the second may go on. -/
  | ended {v s' results} (h : Ended course frame level s') :
      Outcome course frame level (.ok v s') results
  /-- The first succeeds, but has failed at its end on the way. -/
  | failedOk {v s' results} (loose : course.ending = .loose)
      (h : FailedAtEnd course.stop s'.failures) : Outcome course frame level (.ok v s') results
  /-- The first fails because of its end, or has failed there on the way. -/
  | failedError {e s' results} (loose : course.ending = .loose)
      (h : e.IsAboutEnd course.stop ∨ FailedAtEnd course.stop s'.failures) :
      Outcome course frame level (.error e s') results

/-! ## Where readers in step stand -/

/-- The current token ends the input only where nothing is left. -/
theorem eq_nil_of_current {s : State} (h : s.rest <:+ course.tokens)
    (hkind : s.current.kind = .endOfInput) : s.rest = [] := by
  cases hrest : s.rest with
  | nil => rfl
  | cons t rest =>
    have ht : t ∈ course.tokens := (hrest ▸ h).subset List.mem_cons_self
    simp only [State.current, hrest, List.head?_cons, Option.getD_some] at hkind
    exact absurd hkind (course.endFree t ht)

/-- Any other token is one of those that are left. -/
theorem ne_nil_of_kind {kind : TokenKind} (h : s.current.kind = kind)
    (hkind : kind ≠ .endOfInput) : s.rest ≠ [] :=
  fun hnil => hkind (h ▸ current_of_nil hnil)

/-- As long as the first reader has tokens left, both stand before the same one. -/
theorem Sited.current_eq (h : Sited course s t) (hne : s.rest ≠ []) : t.current = s.current := by
  obtain ⟨first, rest, hrest⟩ := List.exists_cons_of_ne_nil hne
  simp only [State.current, h.rest, hrest]
  rfl

/-- Where nothing is open, only the brackets of the frame are. -/
theorem Aligned.brackets_eq (h : Aligned course frame .zero s t) : s.brackets = frame.brackets :=
  (h.outer.eq_of_length (by simpa using h.length.symm)).symm

/-- The second reader is within the brackets of the frame and of the course. -/
theorem Aligned.outer' (h : Aligned course frame level s t) :
    frame.brackets ++ course.around <:+ t.brackets := by
  obtain ⟨opened, hopened⟩ := h.outer
  rw [h.brackets', ← hopened, List.append_assoc]
  exact List.suffix_append _ _

/-- The second reader is within the frame. -/
theorem Aligned.right (h : Aligned course frame level s t) : Right course frame t :=
  ⟨h.stop', h.outer', h.forgetful⟩

/-- At the end of an element no brackets are open. -/
theorem Aligned.zero_of_nil (h : Aligned course frame level s t)
    (hending : course.ending = .stopped) (hnil : s.rest = []) :
    level = .zero ∧ s.brackets = [] := by
  have hbalanced := h.balanced hending
  have hlength := h.length
  have hframe := frame.length_le
  rw [hnil, excess_nil] at hbalanced
  obtain rfl : level = .zero := Level.eq_zero_of_total (by omega)
  rw [Level.brackets_zero] at hlength
  exact ⟨rfl, List.length_eq_zero_iff.mp (by omega)⟩

/-- Readers in step see the same token, or the first one is at the end of an element. -/
theorem Sync.current_cases (h : Sync course frame level s t) :
    (t.current = s.current ∧ (s.rest = [] → course.ending = .closed)) ∨
      (course.ending = .stopped ∧ s.rest = [] ∧ t.current.kind ∈ elementEnds) := by
  by_cases hne : s.rest = []
  · cases hending : course.ending with
    | closed =>
      obtain ⟨hafter, -, hstop⟩ := course.closed hending
      -- both inputs end here
      refine .inl ⟨?_, fun _ => rfl⟩
      simp only [State.current, h.rest, hne, hafter, h.stop', h.stop, hstop]
      rfl
    | stopped =>
      obtain ⟨first, hfirst, hkind⟩ := course.stopped hending
      -- only the first input ends, before what ends an element of the second
      refine .inr ⟨rfl, hne, ?_⟩
      rw [Option.mem_def] at hfirst
      simp only [State.current, h.rest, hne, List.nil_append, hfirst, Option.getD_some]
      exact hkind
    | loose => exact absurd hne (h.live hending)
  · exact .inl ⟨h.current_eq hne, fun hnil => absurd hnil hne⟩

/-! ## Outcomes of single steps -/

/-- Readers that are aligned behind a step are an outcome of it. -/
theorem Aligned.outcome {v : α} {results : Nat → EStateM.Result SyntaxError State α}
    (h : Aligned course frame level s' t') (hr : ∀ᶠ room in atTop, results room = .ok v t') :
    Outcome course frame level (.ok v s') results := by
  by_cases hended : course.ending = .loose ∧ s'.rest = []
  · obtain ⟨hloose, hnil⟩ := hended
    exact .ended { h with loose := hloose, rest := hnil }
  · exact .ok { h with live := fun hloose hnil => hended ⟨hloose, hnil⟩ } hr

/-- Passing over a token, which may open a bracket or close one. -/
theorem Sync.pass (h : Sync course frame before s t) (hne : s.rest ≠ []) {brackets : List Location}
    (houter : frame.brackets <:+ brackets)
    (hlength : brackets.length = after.brackets + frame.brackets.length)
    (htotal : (after.total : Int) = before.total - s.current.kind.balance) :
    Aligned course frame after { s with rest := s.rest.tail, brackets := brackets }
      { t with rest := t.rest.tail, brackets := brackets ++ course.around } where
  suffix := (List.tail_suffix _).trans h.suffix
  rest := by
    simp only [h.rest]
    exact List.tail_append_of_ne_nil hne
  stop' := h.stop'
  brackets' := rfl
  forgetful := h.forgetful
  stop := h.stop
  outer := houter
  known := h.known
  length := hlength
  balanced hending := by
    -- the excess of what is left changes as the level does
    have hbalanced := h.balanced hending
    have htail := excess_tail (s := s) rfl
    dsimp only
    omega

/-- Passing over a token that is no bracket. -/
theorem Sync.pass_plain (h : Sync course frame before s t) (hne : s.rest ≠ [])
    (hbrackets : after.brackets = before.brackets)
    (htotal : (after.total : Int) = before.total - s.current.kind.balance) :
    Aligned course frame after { s with rest := s.rest.tail } { t with rest := t.rest.tail } := by
  have hpass := h.pass hne h.outer (hbrackets ▸ h.length) htotal
  rw [← h.brackets'] at hpass
  exact hpass

/-- Two errors of steps that stay where they are. -/
theorem Sync.error (h : Sync course frame before s t) {e e' : SyntaxError}
    (he : e.isRecoverable = true) (he' : e'.isRecoverable = true) :
    Outcome (α := α) course frame after (.error e s) fun _ => .error e' t :=
  .error he he' h.toLeft (.of_forall fun _ => ⟨t, rfl, h.right⟩)

/-- A step that does nothing. -/
theorem Sync.pure (h : Sync course frame level s t) (v : α) :
    Outcome course frame level (.ok v s) fun _ => .ok v t :=
  .ok h (.of_forall fun _ => rfl)

/-! ## Outcomes put together -/

namespace Outcome

variable {result : EStateM.Result SyntaxError State α}
  {results results' : Nat → EStateM.Result SyntaxError State α}

/-- The second reader may take other rooms, as long as these grow without bound. -/
theorem reindex {room : Nat → Nat} (hroom : Tendsto room atTop atTop)
    (h : Outcome course frame level result results)
    (heq : ∀ᶠ n in atTop, results' n = results (room n)) :
    Outcome course frame level result results' := by
  rcases h with ⟨sync, h⟩ | ⟨he, he', left, h⟩ | hfinal | ⟨hloose, h⟩ | hended |
    ⟨hloose, h⟩ | ⟨hloose, h⟩
  · -- what holds for much room holds for much more
    refine .ok sync ?_
    filter_upwards [heq, hroom.eventually h] with n heq h
    rw [heq, h]
  · refine .error he he' left ?_
    filter_upwards [heq, hroom.eventually h] with n heq h
    rwa [heq]
  · exact .final hfinal
  · refine .dead hloose ?_
    filter_upwards [heq, hroom.eventually h] with n heq h
    rwa [heq]
  · exact .ended hended
  · exact .failedOk hloose h
  · exact .failedError hloose h

/-- The results of the second reader matter only for much room. -/
theorem congr (h : Outcome course frame level result results)
    (heq : ∀ᶠ room in atTop, results' room = results room) :
    Outcome course frame level result results' :=
  h.reindex tendsto_id heq

/-- What is left to the first reader once it has failed at its end. -/
theorem of_failed (hloose : course.ending = .loose) (hfailed : FailedAtEnd course.stop s.failures)
    (h : Stuck course.stop s before between result) :
    Outcome course frame level result results := by
  rcases h with _ | hfailed' | hfinal | habout
  · exact .failedOk hloose hfailed
  · exact .failedOk hloose hfailed'
  · exact .final hfinal
  · exact .failedError hloose habout

/-- What is left to the first reader once it has come to its end. -/
theorem of_ended (hended : Ended course frame before s)
    (h : Stuck course.stop s before after result) : Outcome course frame after result results := by
  rcases h with ⟨v, rfl⟩ | hfailed | hfinal | habout
  · exact .ended hended
  · exact .failedOk hended.loose hfailed
  · exact .final hfinal
  · exact .failedError hended.loose habout

/-- A step goes on as the one before it ended; a reader that is lost by then has to get stuck. -/
theorem bind {m : Parse α} {run : Nat → Parse α} {f : α → Parse β} {next : Nat → α → Parse β}
    (hm : Outcome course frame between (m s) fun room => run room t)
    (hstuck : ∀ v s₁, m s = .ok v s₁ → Lost course frame between s₁ →
      Stuck course.stop s₁ between after (f v s₁))
    (hf : ∀ v s₁ t₁, m s = .ok v s₁ → Sync course frame between s₁ t₁ →
      Outcome course frame after (f v s₁) fun room => next room v t₁) :
    Outcome course frame after ((m >>= f) s) fun room => (run room >>= next room) t := by
  change Outcome course frame after (EStateM.bind m f s) _
  unfold EStateM.bind
  revert hm hstuck hf
  generalize m s = r
  rintro (⟨sync, h⟩ | ⟨he, he', left, h⟩ | hfinal | ⟨hloose, h⟩ | hended |
    ⟨hloose, h⟩ | ⟨hloose, h⟩)
    hstuck hf
  · -- both succeed, and the second steps are in step by assumption
    refine (hf _ _ _ rfl sync).congr ?_
    filter_upwards [h] with room h
    exact bind_ok _ h
  · refine .error he he' left ?_
    filter_upwards [h] with room hroom
    obtain ⟨t', h, right⟩ := hroom
    exact ⟨t', bind_error h, right⟩
  · exact .final hfinal
  · refine .dead hloose ?_
    filter_upwards [h] with room hroom
    obtain ⟨e, t', h, hfinal⟩ := hroom
    exact ⟨e, t', bind_error h, hfinal⟩
  · -- the first reader has come to the end of its input, where its second step gets stuck
    exact of_ended hended (hstuck _ _ rfl (.inl hended))
  · -- a failure at the end is on record already
    exact of_failed hloose h (hstuck _ _ rfl (.inr h))
  · exact .failedError hloose h

/-- A step that leaves the brackets as they are does so within others, too. -/
theorem lift (hsync : Sync course frame level s t) {inner : Frame}
    (hbrackets : inner.brackets = s.brackets) (htotal : inner.total = level.total + frame.total)
    (h : Outcome course inner .zero result results) :
    Outcome course frame level result results := by
  have houter : frame.brackets <:+ inner.brackets := hbrackets ▸ hsync.outer
  have houter' : frame.brackets ++ course.around <:+ inner.brackets ++ course.around := by
    rw [hbrackets, ← hsync.brackets']
    exact hsync.outer'
  -- the inner frame has all the brackets that are open
  have hlength : ∀ s₁ : State, s₁.brackets.length = Level.zero.brackets + inner.brackets.length →
      s₁.brackets.length = level.brackets + frame.brackets.length := by
    intro s₁ h
    rw [h, hbrackets, hsync.length]
    exact Nat.zero_add _
  rcases h with @⟨v, s', t', results, sync, h⟩ | ⟨he, he', left, h⟩ | hfinal | ⟨hloose, h⟩ |
    @⟨v, s', results, hended⟩ | ⟨hloose, h⟩ | ⟨hloose, h⟩
  · have hbalanced : course.ending = .stopped → excess s'.rest = level.total + frame.total := by
      intro hending
      rw [sync.balanced hending, htotal]
      simp
    -- the outer frame's own conditions replace those of the inner one
    exact .ok { sync with
      outer := houter.trans sync.outer
      length := hlength s' sync.length
      balanced := hbalanced } h
  · -- the brackets of the inner frame stay open when it is left by an error
    refine .error he he' { left with outer := houter.trans left.outer } ?_
    filter_upwards [h] with room hroom
    obtain ⟨t', h, right⟩ := hroom
    exact ⟨t', h, { right with outer' := houter'.trans right.outer' }⟩
  · exact .final hfinal
  · exact .dead hloose h
  · exact .ended { hended with
      outer := houter.trans hended.outer
      length := hlength s' hended.length }
  · exact .failedOk hloose h
  · exact .failedError hloose h

/-! ## Alternatives and repetition -/

/-- What is left of brackets behind those that were opened. -/
theorem drop_of_suffix {brackets brackets' : List Location} (h : brackets <:+ brackets') :
    brackets'.drop (brackets'.length - brackets.length) = brackets :=
  (List.suffix_iff_eq_drop.mp h).symm

/-- After a failed attempt both readers are back where it began. -/
theorem attempt {m : Parse α} {run : Nat → Parse α} (hsync : Sync course frame .zero s t)
    (hm : Outcome course frame .zero (m s) fun room => run room t)
    (hfailed : ∀ e s', m s = .error e s' → e.isRecoverable = true → e.IsAboutEnd course.stop →
      FailedAtEnd course.stop s'.failures) :
    Outcome course frame .zero (m.attempt s) fun room => (run room).attempt t := by
  have hbrackets := hsync.brackets_eq
  have hbrackets' : t.brackets = frame.brackets ++ course.around := by
    rw [hsync.brackets', hbrackets]
  unfold Parse.attempt
  revert hm hfailed
  generalize m s = r
  rintro (⟨sync, h⟩ | @⟨e, s', e', results, he, he', left, h⟩ | hfinal | ⟨hloose, h⟩ |
    hended | ⟨hloose, h⟩ | @⟨e, s', results, hloose, h⟩) hfailed
  · -- both succeed
    refine .ok sync ?_
    filter_upwards [h] with room h
    rw [h]
  · -- both fail, and each drops just the brackets that it has opened since
    have hback : s'.rewind s.mark = { s with failures := s'.failures } := by
      simp only [State.rewind, State.mark, left.stop, hsync.stop, hbrackets,
        drop_of_suffix left.outer]
    dsimp only
    rw [if_pos he, hback]
    refine .ok { hsync with known := left.known } ?_
    filter_upwards [h] with room hroom
    obtain ⟨t', h, right⟩ := hroom
    have hback' : t'.rewind t.mark = t := by
      simp only [State.rewind, State.mark, right.stop', hbrackets', drop_of_suffix right.outer',
        right.forgetful]
      rw [← hbrackets', ← hsync.stop', ← hsync.forgetful]
    simp only [h, he', if_true, hback']
  · dsimp only
    rw [if_neg (by simp [hfinal])]
    exact .final hfinal
  · -- the second reader runs out of room, which no attempt recovers from
    refine .dead hloose ?_
    filter_upwards [h] with room hroom
    obtain ⟨e, t', h, hfinal⟩ := hroom
    refine ⟨e, t', ?_, hfinal⟩
    simp only [h, hfinal, Bool.false_eq_true, if_false]
  · exact .ended hended
  · exact .failedOk hloose h
  · dsimp only
    split
    · -- the first reader fails about the end of its input, and puts that on record
      rename_i he
      exact .failedOk hloose (h.elim (hfailed e s' rfl he) id)
    · exact .failedError hloose h

/-- Turns that keep the readers in step do so together. -/
theorem iterate {turn : α → Parse (Turn α β)} {turns : Nat → α → Parse (Turn α β)}
    (hturn : ∀ a s t, Sync course frame level s t →
      Outcome course frame level (turn a s) fun room => turns room a t)
    (hstuck : ∀ a s, Spent course.stop s → Stuck course.stop s level level (turn a s)) (a : α)
    (hsync : Sync course frame level s t) :
    Outcome course frame level (iterate turn a s) fun room => Parse.iterate (turns room) a t := by
  -- induction on what remains of the input, which every turn but the last makes shorter
  induction hn : s.rest.length using Nat.strongRecOn generalizing a s t with
  | _ n ih =>
    subst hn
    have hm := hturn a s t hsync
    unfold Parse.iterate
    revert hm
    generalize turn a s = r
    rintro (@⟨next, s', t', results, sync, h⟩ | ⟨he, he', left, h⟩ | hfinal | ⟨hloose, h⟩ |
      @⟨next, s', results, hended⟩ | @⟨next, s', results, hloose, h⟩ | ⟨hloose, h⟩)
    · -- what the second reader has left is longer by the same tokens before and after the turn
      have hlt_iff : t'.rest.length < t.rest.length ↔ s'.rest.length < s.rest.length := by
        rw [sync.rest, hsync.rest, List.length_append, List.length_append]
        omega
      cases next with
      | done b =>
        refine .ok sync ?_
        filter_upwards [h] with room h
        rw [h]
      | again a' =>
        dsimp only
        by_cases hlt : s'.rest.length < s.rest.length
        · rw [if_pos hlt]
          refine (ih _ hlt a' sync rfl).congr ?_
          filter_upwards [h] with room h
          simp only [h, if_pos (hlt_iff.mpr hlt)]
        · -- both stop at having read nothing
          rw [if_neg hlt]
          refine (sync.error (isRecoverable_unexpected s') (isRecoverable_unexpected t')).congr ?_
          filter_upwards [h] with room h
          simp only [h, if_neg (fun hlt' => hlt (hlt_iff.mp hlt'))]
    · refine .error he he' left ?_
      filter_upwards [h] with room hroom
      obtain ⟨t', h, right⟩ := hroom
      exact ⟨t', by simp only [h], right⟩
    · exact .final hfinal
    · refine .dead hloose ?_
      filter_upwards [h] with room hroom
      obtain ⟨e, t', h, hfinal⟩ := hroom
      exact ⟨e, t', by simp only [h], hfinal⟩
    · -- the first reader is at the end of its input, and goes on there
      cases next with
      | done b => exact .ended { hended with }
      | again a' =>
        dsimp only
        split
        · exact of_ended hended (.iterate hstuck a' hended.spent)
        · exact .failedError hended.loose (.inl (isAboutEnd_unexpected hended.rest))
    · cases next with
      | done b => exact .failedOk hloose h
      | again a' =>
        dsimp only
        split
        · exact of_failed hloose h (.iterate hstuck a' (.inl h))
        · exact .failedError hloose (.inr h)
    · exact .failedError hloose h

end Outcome

end Symbolic.Reader
