import Symbolic.Proofs.Likeness.Rules

/-!
# An alternative that fails leaves no trace

Going back cuts the brackets down to as many as there were. That this gives back the very brackets
there were is not a matter of numbers: no rule may close a bracket that it has not opened itself,
and open another one in its place. So whatever a step does, the brackets that were open around it
stay where they are, below those it has opened; and the depth at which it reads its parts does not
depend on what it has tried before.

## Key results

- `Contained`: outcomes that leave the brackets around a step alone
- `Parallel.contained_here`: what a derivation says about the brackets of one reader
- `contained_expression`: an expression closes just what it opens
- `attempt_leaves_no_trace`: an alternative that fails has only added to what is remembered
-/

namespace Symbolic.Reader

open Parse

/-- An outcome of a step from `s` on that has left the brackets `outer` alone. If it is a value,
    just `depth` more of them are open; an error may have come up within any number of them. -/
inductive Contained (s : State) (outer : List Location) (depth : Nat) {α : Type} :
    EStateM.Result SyntaxError State α → Prop where
  | ok {a : α} {s' : State} {inner : List Location} (brackets : s'.brackets = inner ++ outer)
      (length : inner.length = depth) (stop : s'.stop = s.stop)
      (failures : s.failures <:+ s'.failures) : Contained s outer depth (.ok a s')
  | error {e : SyntaxError} {s' : State} (brackets : outer <:+ s'.brackets)
      (stop : s'.stop = s.stop) (failures : s.failures <:+ s'.failures) :
      Contained s outer depth (.error e s')

variable {table : OperatorTable} {s s' : State} {α β : Type} {inner outer : List Location}
  {before between after depth : Nat}

namespace Contained

/-- A step that stays where it is. -/
theorem stay {a : α} (hbrackets : s.brackets = inner ++ outer) (hlength : inner.length = depth) :
    Contained s outer depth (.ok a s) :=
  .ok hbrackets hlength rfl (List.suffix_refl _)

theorem fail {e : SyntaxError} (hbrackets : s.brackets = inner ++ outer) :
    Contained s outer depth (.error e s : EStateM.Result SyntaxError State α) :=
  .error ⟨inner, hbrackets.symm⟩ rfl (List.suffix_refl _)

/-- What is contained from further on is contained from here on. -/
theorem trans {r : EStateM.Result SyntaxError State α} (stop : s'.stop = s.stop)
    (failures : s.failures <:+ s'.failures) (h : Contained s' outer depth r) :
    Contained s outer depth r := by
  cases h with
  | ok brackets length stop' failures' =>
    exact .ok brackets length (stop'.trans stop) (failures.trans failures')
  | error brackets stop' failures' =>
    exact .error brackets (stop'.trans stop) (failures.trans failures')

theorem bind {m : Parse α} {f : α → Parse β} (hm : Contained s outer between (m s))
    (hf : ∀ a s' inner, s'.brackets = inner ++ outer → inner.length = between →
      Contained s' outer after (f a s')) :
    Contained s outer after ((m >>= f) s) := by
  show Contained s outer after (EStateM.bind m f s)
  unfold EStateM.bind
  revert hm
  generalize m s = r
  rintro (⟨brackets, length, stop, failures⟩ | ⟨brackets, stop, failures⟩)
  · exact .trans stop failures (hf _ _ _ brackets length)
  · exact .error brackets stop failures

theorem advance (hbrackets : s.brackets = inner ++ outer) (hlength : inner.length = depth) :
    Contained s outer depth (Parse.advance s) :=
  .ok hbrackets hlength rfl (List.suffix_refl _)

theorem openBracket (hbrackets : s.brackets = inner ++ outer) (hlength : inner.length = depth) :
    Contained s outer (depth + 1) (Parse.openBracket s) := by
  have hopen : s.current.loc :: s.brackets = (s.current.loc :: inner) ++ outer := by
    rw [hbrackets, List.cons_append]
  exact .ok hopen (by simp [hlength]) rfl (List.suffix_refl _)

/-- The bracket that is closed is one of those opened since. -/
theorem closeBracket (closer : TokenKind) (hbrackets : s.brackets = inner ++ outer)
    (hlength : inner.length = depth + 1) :
    Contained s outer depth (Parse.closeBracket closer s) := by
  rw [closeBracket_eq]
  split
  · obtain _ | ⟨loc, inner⟩ := inner
    · cases hlength
    · have htail : s.brackets.tail = inner ++ outer := by rw [hbrackets, List.cons_append]; rfl
      exact .ok htail (Nat.succ.inj hlength) rfl (List.suffix_refl _)
  · exact .fail hbrackets

/-- Going back from within any brackets gives back those that were open. -/
theorem rewind_eq (hbrackets : s.brackets <:+ s'.brackets) (hstop : s'.stop = s.stop) :
    s'.rewind s.mark = { s with failures := s'.failures } := by
  obtain ⟨opened, hopened⟩ := hbrackets
  have hlength : s'.brackets.length - s.brackets.length = opened.length := by
    rw [← hopened, List.length_append]
    omega
  unfold State.rewind State.mark
  rw [hstop, hlength, ← hopened, List.drop_left]

theorem attempt {m : Parse α} (hm : Contained s s.brackets 0 (m s))
    (hbrackets : s.brackets = inner ++ outer) (hlength : inner.length = depth) :
    Contained s outer depth (m.attempt s) := by
  unfold Parse.attempt
  revert hm
  generalize m s = r
  rintro (@⟨a, s', opened, brackets, length, stop, failures⟩ | ⟨brackets, stop, failures⟩)
  · obtain rfl := List.length_eq_zero_iff.mp length
    exact .ok (brackets.trans hbrackets) hlength stop failures
  · dsimp only
    split
    · -- what is taken back are the tokens and the brackets, not the memory
      rw [rewind_eq brackets stop]
      exact .ok hbrackets hlength rfl failures
    · exact .error (.trans ⟨inner, hbrackets.symm⟩ brackets) stop failures

/-- A loop is contained if its first turn is and if it goes on so. -/
theorem iterate_of_first {turn : α → Parse (Turn α β)} {a : α}
    (hfirst : Contained s outer depth (turn a s))
    (hrest : ∀ a s' inner, s'.rest.length < s.rest.length → s'.brackets = inner ++ outer →
      inner.length = depth → Contained s' outer depth (Parse.iterate turn a s')) :
    Contained s outer depth (Parse.iterate turn a s) := by
  unfold Parse.iterate
  revert hfirst
  generalize turn a s = r
  rintro (@⟨next, s', opened, brackets, length, stop, failures⟩ | ⟨brackets, stop, failures⟩)
  · cases next with
    | done b => exact .ok brackets length stop failures
    | again a' =>
      dsimp only
      split
      · -- the loop goes on as long as a turn takes some tokens
        rename_i hlt
        exact .trans stop failures (hrest a' s' opened hlt brackets length)
      · exact .error ⟨opened, brackets.symm⟩ stop failures
  · exact .error brackets stop failures

theorem iterate {turn : α → Parse (Turn α β)}
    (hturn : ∀ a s inner, s.brackets = inner ++ outer → inner.length = depth →
      Contained s outer depth (turn a s))
    (a : α) (hbrackets : s.brackets = inner ++ outer) (hlength : inner.length = depth) :
    Contained s outer depth (Parse.iterate turn a s) := by
  -- induction on what remains of the input, which every turn but the last makes shorter
  induction hn : s.rest.length using Nat.strongRecOn generalizing a s inner with
  | _ n ih =>
    subst hn
    exact iterate_of_first (hturn a s inner hbrackets hlength)
      fun a' s' opened hlt hopened hdepth => ih _ hlt a' hopened hdepth rfl

/-- A failure that is remembered leaves the brackets as they are. -/
theorem remember {step : Parse α} (p : Precedence) (h : Contained s s.brackets 0 (step s)) :
    Contained s s.brackets 0 (Parse.remember p step s) := by
  unfold Parse.remember
  split
  · exact .fail (List.nil_append _).symm
  · revert h
    generalize step s = r
    rintro (⟨brackets, length, stop, failures⟩ | ⟨brackets, stop, failures⟩)
    · exact .ok brackets length stop failures
    · dsimp only
      split
      · -- a failure is remembered on top of those found on the way
        exact .error brackets stop (failures.trans (List.suffix_cons _ _))
      · exact .error brackets stop failures

end Contained

/-- What a derivation says about the brackets of the first of its readers. The brackets that are
    open are those around it and as many more as the derivation counts. -/
theorem Parallel.contained_here [Located α] {expr : Precedence → Parse Expr}
    {expr' : Nat → Precedence → Parse Expr} {here : Option (Token × Token)} {passed : Prop}
    {gains : α → Prop} {m : Parse α} {m' : Nat → Parse α}
    (h : Parallel (.only fun _ => True) table expr expr' here passed before after gains m m')
    (hexpr : ∀ p s, Contained s s.brackets 0 (expr p s)) (hbrackets : s.brackets = inner ++ outer)
    (hlength : inner.length = before) (hhere : ∀ u ∈ here, u = (s.current, s.current)) :
    Contained s outer after (m s) := by
  -- induction on the derivation; the second reader plays no part
  induction h generalizing s inner outer with
  | pure value progress => exact .stay hbrackets hlength
  | bind first second ih ih' =>
    exact .bind (ih hbrackets hlength hhere) fun a s' opened hopened hdepth =>
      ih' a a (Located.like_self (fun _ => rfl) a) hopened hdepth fun u hu => nomatch hu
  | peek next ih =>
    exact ih s.current s.current ⟨rfl, trivial⟩ hhere hbrackets hlength fun u hu =>
      (Option.some.inj hu).symm
  | advance => exact .advance hbrackets hlength
  | openBracket opens => exact .openBracket hbrackets hlength
  | closeBracket closer => exact .closeBracket closer hbrackets hlength
  | atFinalEnd => exact .stay hbrackets hlength
  | throw token fault error => exact .fail hbrackets
  | unexpected => exact .fail hbrackets
  | missing unmatched => exact .fail hbrackets
  | @result _ _ _ _ _ _ _ _ _ x _ f _ _ _ token fault result next ih =>
    cases x with
    | error e => exact .fail hbrackets
    | ok a => exact ih a a (Located.like_self (fun _ => rfl) a) hbrackets hlength hhere
  | expr p =>
    -- the expression is contained in all brackets that are open, not only in those around the rule
    have hall := hexpr p s
    revert hall
    generalize expr p s = r
    rintro (@⟨e, s', opened, brackets, length, stop, failures⟩ | ⟨brackets, stop, failures⟩)
    · obtain rfl := List.length_eq_zero_iff.mp length
      exact .ok (brackets.trans hbrackets) hlength stop failures
    · exact .error (.trans ⟨inner, hbrackets.symm⟩ brackets) stop failures
  | attempt step ih =>
    have hinner : s.brackets = [] ++ s.brackets := (List.nil_append _).symm
    exact .attempt (ih hinner rfl fun u hu => nomatch hu) hbrackets hlength
  | iterate first next ih ih' =>
    exact .iterate_of_first (ih hbrackets hlength hhere) fun b s' opened _ hopened hdepth =>
      .iterate (fun b s' opened hopened hdepth =>
        ih' b b (Located.like_self (fun _ => rfl) b) hopened hdepth fun u hu => nomatch hu)
        b hopened hdepth
  | weaken step known less progress ih =>
    exact ih hbrackets hlength fun u hu => hhere u (known u hu)

/-! ## Expressions -/

/-- An expression closes just the brackets that it opens, at any depth and whatever the table. -/
theorem contained_expression (table : OperatorTable) (room : Nat) (p : Precedence) (s : State) :
    Contained s s.brackets 0 (expression table room p s) := by
  -- induction on the room, which is less for the parts of an expression
  induction room generalizing s p with
  | zero => exact .fail (List.nil_append _).symm
  | succ room ih =>
    have hchain : Parallel (.only fun _ => True) table (expression table room)
        (fun _ => expression table room) none False 0 0 (fun _ => True)
        (chain table (expression table room) p) (fun _ => chain table (expression table room) p) :=
      parallel_chain p
    have hinner : s.brackets = [] ++ s.brackets := (List.nil_append _).symm
    exact .remember p (hchain.contained_here (fun q s => ih q s) hinner rfl fun u hu => nomatch hu)

/-- The same with a mark before it, which is how the step of a span is tried. -/
theorem contained_advance_expression (table : OperatorTable) (room : Nat) (p : Precedence)
    (s : State) :
    Contained s s.brackets 0 ((advance >>= fun _ => expression table room p) s) := by
  have hinner : s.brackets = [] ++ s.brackets := (List.nil_append _).symm
  refine .bind (.advance hinner rfl) fun _ s' opened hopened hdepth => ?_
  obtain rfl := List.length_eq_zero_iff.mp hdepth
  have hexpr := contained_expression table room p s'
  rwa [hopened, List.nil_append] at hexpr

/-- Reads an expression within as many others as `depth` says. -/
def expressionAt (settings : Settings) (depth : Nat) (p : Precedence) : Parse Expr :=
  expression settings.table (settings.limit - depth) p

/-- The parts of an expression are all read one level deeper than it is, and all at the same
    level. -/
theorem expressionAt_eq (settings : Settings) (depth : Nat) (p : Precedence) :
    expressionAt settings depth p =
      if depth < settings.limit then
        remember p (chain settings.table (expressionAt settings (depth + 1)) p)
      else outOfRoom := by
  unfold expressionAt
  split
  · have hroom : settings.limit - depth = settings.limit - (depth + 1) + 1 := by omega
    rw [hroom]
    rfl
  · have hroom : settings.limit - depth = 0 := by omega
    rw [hroom]
    rfl

/-- If trying the step comes to nothing, the reader is just as it was, but for failures that it
    has learnt of. -/
def LeavesNoTrace (step : Parse α) (s : State) : Prop :=
  ∀ s', step.attempt s = .ok none s' →
    ∃ learnt, s' = { s with failures := learnt ++ s.failures }

theorem leavesNoTrace_of_contained {step : Parse α} (h : Contained s s.brackets 0 (step s)) :
    LeavesNoTrace step s := by
  intro s' hnone
  unfold Parse.attempt at hnone
  revert h hnone
  generalize step s = r
  rintro (⟨brackets, length, stop, failures⟩ | ⟨brackets, stop, ⟨learnt, hlearnt⟩⟩) hnone
  · cases hnone
  · dsimp only at hnone
    split at hnone
    · cases hnone
      -- rewinding keeps what was learnt and nothing else
      exact ⟨learnt, by rw [Contained.rewind_eq brackets stop, hlearnt]⟩
    · cases hnone

/-- From any state on, with any table and limit: an expression reads all its parts at the level
    below its own, whatever it has tried before; if it succeeds, the open brackets are those there
    were, and if it fails, those there were are still open below the others; and neither of the
    alternatives of the grammar, an expression or a mark and an expression, leaves a trace when it
    fails, whatever alternatives it has tried itself. -/
theorem attempt_leaves_no_trace (settings : Settings) (depth : Nat) (p : Precedence) (s : State) :
    (expressionAt settings depth p =
        if depth < settings.limit then
          remember p (chain settings.table (expressionAt settings (depth + 1)) p)
        else outOfRoom) ∧
      (match expressionAt settings depth p s with
        | .ok _ s' => s'.brackets = s.brackets
        | .error _ s' => s.brackets <:+ s'.brackets) ∧
      LeavesNoTrace (expressionAt settings depth p) s ∧
      LeavesNoTrace (advance >>= fun _ => expressionAt settings depth p) s := by
  have hexpr := contained_expression settings.table (settings.limit - depth) p s
  refine ⟨expressionAt_eq settings depth p, ?_, leavesNoTrace_of_contained hexpr,
    leavesNoTrace_of_contained (contained_advance_expression _ _ p s)⟩
  unfold expressionAt
  revert hexpr
  generalize expression settings.table (settings.limit - depth) p s = r
  rintro (@⟨e, s', opened, brackets, length, -, -⟩ | ⟨brackets, -, -⟩)
  · obtain rfl := List.length_eq_zero_iff.mp length
    exact brackets
  · exact brackets

/-- Within the brace of `{;;f[(a]`, after the mark. -/
def afterMark : State where
  rest := [⟨.symbol, "f", ⟨3, 4⟩⟩, ⟨.leftBracket, "[", ⟨4, 5⟩⟩, ⟨.leftParen, "(", ⟨5, 6⟩⟩,
    ⟨.symbol, "a", ⟨6, 7⟩⟩, ⟨.rightBracket, "]", ⟨7, 8⟩⟩]
  stop := ⟨8, 8⟩
  brackets := [⟨0, 1⟩]
  failures := []

/-- The end of the span is tried, two more brackets are opened, and the second is not closed; but
    then the brace is open again and nothing else. -/
theorem attempt_afterMark :
    ∃ learnt s', attempt (expressionAt {} 1 306) afterMark = .ok none s' ∧
      s' = { afterMark with failures := learnt } ∧ learnt ≠ [] := by
  -- the attempt fails and remembers something, which evaluation shows
  have hnone : (match attempt (expressionAt {} 1 306) afterMark with
      | .ok none s' => !s'.failures.isEmpty
      | _ => false) = true := by
    decide +kernel
  split at hnone
  · rename_i s' htried
    obtain ⟨learnt, hs'⟩ := (attempt_leaves_no_trace {} 1 306 afterMark).2.2.1 s' htried
    have hfailures : s'.failures = learnt := by rw [hs']; exact List.append_nil learnt
    refine ⟨learnt, s', htried, by rw [hs']; exact congrArg _ (List.append_nil learnt), ?_⟩
    rintro rfl
    rw [hfailures] at hnone
    cases hnone
  · cases hnone

end Symbolic.Reader
