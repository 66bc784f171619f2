import Mathlib.Order.Filter.AtTopBot.Basic
import Symbolic.Proofs.Likeness.Rules

/-!
# Two readers abreast

Two readers over tokens that mean the same take parallel steps and end in the same way: with like
values at the same place, or with like errors. Of the second one there is a whole family, one for
each amount of room, and what is said of it holds from some amount on. What the first one does
once it has run out of room does not count.

The brackets around the two need not correspond, as long as the innermost ones do: no step looks
further out. Brackets that they open themselves may have to correspond more closely than all
locations do, since each of these is the place of a token.

## Key results

- `Stage`, `Abreast`: what two readers have in common
- `Agrees`: outcomes that agree
- `KeepsUp`: steps of two readers that stay abreast
- `Parallel.keepsUp`: what a derivation says about its two readers
-/

namespace Symbolic.Reader

open Parse Filter

/-- What two readers have in common: which tokens, locations and brackets are taken to be the same,
    the tokens of the first, the ends of their inputs, the brackets around them as far as these have
    to correspond, and what has to hold of the failures that they remember. -/
structure Stage where
  like : Likeness
  bracket : Location → Location → Prop
  tokens : List Token
  stop : Location
  stop' : Location
  around : List Location → List Location → Prop
  known : List (Occasion × SyntaxError) → List (Occasion × SyntaxError) → Prop
  stops : like.token (.endOfInput stop) (.endOfInput stop')
  head?_like : ∀ {outer outer' : List Location}, around outer outer' →
    Located.Like like.location outer.head? outer'.head?
  opens : ∀ {t t' : Token}, like.token t t' → bracket t.loc t'.loc
  cons : ∀ {outer outer' : List Location} {loc loc' : Location}, bracket loc loc' →
    around outer outer' → around (loc :: outer) (loc' :: outer')

/-- Related lists have related tails. -/
theorem forall₂_tail {α β : Type} {r : α → β → Prop} {as : List α} {bs : List β}
    (h : List.Forall₂ r as bs) : List.Forall₂ r as.tail bs.tail := by
  cases h with
  | nil => exact .nil
  | cons _ h => exact h

/-- Brackets that were opened alike are alike around those of the stage. -/
theorem Stage.append {stage : Stage} {inner inner' outer outer' : List Location}
    (hinner : List.Forall₂ stage.bracket inner inner') (h : stage.around outer outer') :
    stage.around (inner ++ outer) (inner' ++ outer') := by
  induction hinner with
  | nil => exact h
  | cons hloc _ ih => exact stage.cons hloc ih

/-- Within `outer` and `outer'` so many brackets are open, and they correspond. -/
def OpenedAlike (bracket : Location → Location → Prop) (depth : Nat)
    (outer outer' brackets brackets' : List Location) : Prop :=
  ∃ inner inner', List.Forall₂ bracket inner inner' ∧ inner.length = depth ∧
    brackets = inner ++ outer ∧ brackets' = inner' ++ outer'

/-- Two readers at the same place of their inputs. -/
structure Abreast (stage : Stage) (depth : Nat) (outer outer' : List Location) (s t : State) :
    Prop where
  rest : List.Forall₂ stage.like.token s.rest t.rest
  suffix : s.rest <:+ stage.tokens
  stop : s.stop = stage.stop
  stop' : t.stop = stage.stop'
  opened : OpenedAlike stage.bracket depth outer outer' s.brackets t.brackets
  known : stage.known s.failures t.failures

variable {α β : Type} [Located α] [Located β]

/-- From some amount of room on, the second outcome agrees with the first. After a success `depth`
    brackets are open within those around; after an error there are any number. -/
inductive Agrees (stage : Stage) (outer outer' : List Location) (depth : Nat) :
    EStateM.Result SyntaxError State α → (Nat → EStateM.Result SyntaxError State α) → Prop where
  | ok {a a' : α} {s t : State} {r' : Nat → EStateM.Result SyntaxError State α}
      (value : Located.Like stage.like.location a a')
      (abreast : Abreast stage depth outer outer' s t)
      (eventually : ∀ᶠ n in atTop, r' n = .ok a' t) : Agrees stage outer outer' depth (.ok a s) r'
  | error {e e' : SyntaxError} {s : State} {failures' : List (Occasion × SyntaxError)}
      {r' : Nat → EStateM.Result SyntaxError State α}
      (error : SyntaxError.Like stage.like.location e e') (stop : s.stop = stage.stop)
      (brackets : outer <:+ s.brackets) (known : stage.known s.failures failures')
      (eventually : ∀ᶠ n in atTop, ∃ t, r' n = .error e' t ∧ t.stop = stage.stop' ∧
        outer' <:+ t.brackets ∧ t.failures = failures') :
      Agrees stage outer outer' depth (.error e s) r'
  | final {e : SyntaxError} {s : State} {r' : Nat → EStateM.Result SyntaxError State α}
      (h : e.isRecoverable = false) : Agrees stage outer outer' depth (.error e s) r'

variable {stage : Stage} {outer outer' : List Location} {depth before after : Nat} {s t : State}

/-! ## States -/

namespace Abreast

/-- The current tokens mean the same. -/
theorem current (h : Abreast stage depth outer outer' s t) :
    stage.like.token s.current t.current := by
  have hrest := h.rest
  unfold State.current
  rw [h.stop, h.stop']
  revert hrest
  generalize s.rest = rest, t.rest = rest'
  rintro (_ | ⟨ht, _⟩)
  · exact stage.stops
  · exact ht

/-- The brackets around both readers are alike. -/
theorem around (h : Abreast stage depth outer outer' s t) (haround : stage.around outer outer') :
    stage.around s.brackets t.brackets := by
  obtain ⟨inner, inner', hinner, -, hbrackets, hbrackets'⟩ := h.opened
  rw [hbrackets, hbrackets']
  exact Stage.append hinner haround

/-- Both readers are within brackets or neither is. -/
theorem isEmpty_eq (h : Abreast stage depth outer outer' s t)
    (haround : stage.around outer outer') : t.brackets.isEmpty = s.brackets.isEmpty := by
  have hhead := stage.head?_like (h.around haround)
  revert hhead
  cases s.brackets <;> cases t.brackets <;> rintro (_ | _) <;> rfl

/-- Both put the fault in places that are alike. -/
theorem faultAt (h : Abreast stage depth outer outer' s t) (haround : stage.around outer outer')
    {e e' : SyntaxError} (he : SyntaxError.Like stage.like.location e e') :
    SyntaxError.Like stage.like.location (s.faultAt e) (t.faultAt e') := by
  have hhead := stage.head?_like (h.around haround)
  unfold State.faultAt
  rw [stage.like.kind_eq h.current]
  split
  · revert hhead
    generalize s.brackets.head? = b, t.brackets.head? = b'
    rintro (hloc | _)
    · exact .unclosedBracket hloc
    · exact he
  · exact he

/-- Both report the next token the same way. -/
theorem unexpected (h : Abreast stage depth outer outer' s t)
    (haround : stage.around outer outer') :
    SyntaxError.Like stage.like.location s.unexpected t.unexpected := by
  refine h.faultAt haround ?_
  rw [stage.like.kind_eq h.current]
  exact .unexpectedToken (stage.like.loc h.current)

/-- All brackets can be taken for brackets around. -/
theorem outward (h : Abreast stage depth outer outer' s t) :
    Abreast stage 0 s.brackets t.brackets s t :=
  { h with opened := ⟨[], [], .nil, rfl, rfl, rfl⟩ }

/-- Both pass over a token. -/
theorem tail (h : Abreast stage depth outer outer' s t) :
    Abreast stage depth outer outer' { s with rest := s.rest.tail }
      { t with rest := t.rest.tail } :=
  { h with
    rest := forall₂_tail h.rest
    suffix := (List.tail_suffix _).trans h.suffix }

/-- What is opened is within all that is open. -/
theorem brackets (h : Abreast stage depth outer outer' s t) :
    outer <:+ s.brackets ∧ outer' <:+ t.brackets := by
  obtain ⟨inner, inner', -, -, hbrackets, hbrackets'⟩ := h.opened
  exact ⟨⟨inner, hbrackets.symm⟩, ⟨inner', hbrackets'.symm⟩⟩

end Abreast

/-! ## Outcomes -/

namespace Agrees

variable {r : EStateM.Result SyntaxError State α}
  {r' r'' : Nat → EStateM.Result SyntaxError State α}

/-- Only what the second reader does from some amount of room on counts. -/
theorem congr (h : Agrees stage outer outer' depth r r') (heq : ∀ᶠ n in atTop, r'' n = r' n) :
    Agrees stage outer outer' depth r r'' := by
  cases h with
  | ok value abreast eventually =>
    exact .ok value abreast ((heq.and eventually).mono fun n h => h.1.trans h.2)
  | error error stop brackets known eventually =>
    refine .error error stop brackets known ((heq.and eventually).mono fun n h => ?_)
    obtain ⟨hn, t, ht, hprops⟩ := h
    exact ⟨t, hn.trans ht, hprops⟩
  | final h => exact .final h

/-- Two steps that stay where they are and give like values. -/
theorem stay (h : Abreast stage depth outer outer' s t) {a a' : α}
    (ha : Located.Like stage.like.location a a') :
    Agrees stage outer outer' depth (.ok a s) (fun _ => .ok a' t) :=
  .ok ha h (.of_forall fun _ => rfl)

/-- Two steps that stay where they are and fail alike. -/
theorem fail (h : Abreast stage depth outer outer' s t) {e e' : SyntaxError}
    (he : SyntaxError.Like stage.like.location e e') :
    Agrees (α := α) stage outer outer' after (.error e s) (fun _ => .error e' t) :=
  .error he h.stop h.brackets.1 h.known
    (.of_forall fun _ => ⟨t, rfl, h.stop', h.brackets.2, rfl⟩)

/-- What two steps do within more brackets than `outer` and `outer'`, they do within these. -/
theorem within (h : Abreast stage depth outer outer' s t)
    (hr : Agrees stage s.brackets t.brackets 0 r r') : Agrees stage outer outer' depth r r' := by
  cases hr with
  | ok value abreast eventually =>
    -- a success closes what it opens, so the brackets are those of the start
    obtain ⟨inner, inner', hinner, hlength, hbrackets, hbrackets'⟩ := abreast.opened
    cases hinner with
    | cons => simp at hlength
    | nil =>
      have hopened := h.opened
      rw [← show _ = s.brackets from hbrackets, ← show _ = t.brackets from hbrackets'] at hopened
      exact .ok value { abreast with opened := hopened } eventually
  | error error stop brackets known eventually =>
    refine .error error stop (h.brackets.1.trans brackets) known (eventually.mono ?_)
    rintro n ⟨t', ht', stop', brackets', hfailures⟩
    exact ⟨t', ht', stop', h.brackets.2.trans brackets', hfailures⟩
  | final h => exact .final h

/-- A step goes on as the one before it ended. -/
theorem bind {m : Parse α} {m' : Nat → Parse α} {f : α → Parse β} {f' : Nat → α → Parse β}
    (hm : Agrees stage outer outer' depth (m s) (fun n => m' n t))
    (hf : ∀ a a' s t, Located.Like stage.like.location a a' →
      Abreast stage depth outer outer' s t →
      Agrees stage outer outer' after (f a s) (fun n => f' n a' t)) :
    Agrees stage outer outer' after ((m >>= f) s) (fun n => (m' n >>= f' n) t) := by
  cases hr : m s with
  | ok a s' =>
    rw [bind_ok _ hr]
    rw [hr] at hm
    obtain ⟨value, abreast, eventually⟩ := hm
    exact (hf _ _ _ _ value abreast).congr (eventually.mono fun n h => bind_ok _ h)
  | error e s' =>
    -- an error of the first step is the error of both
    rw [bind_error hr]
    rw [hr] at hm
    obtain _ | ⟨error, stop, brackets, known, eventually⟩ | hfinal := hm
    · refine .error error stop brackets known (eventually.mono ?_)
      rintro n ⟨t', ht', hprops⟩
      exact ⟨t', bind_error ht', hprops⟩
    · exact .final hfinal

/-- Both open a bracket. -/
theorem openBracket (h : Abreast stage depth outer outer' s t) :
    Agrees stage outer outer' (depth + 1) (Parse.openBracket s) (fun _ => Parse.openBracket t) := by
  have hloc : Located.Like stage.like.location s.current.loc t.current.loc :=
    stage.like.loc h.current
  obtain ⟨inner, inner', hinner, hlength, hbrackets, hbrackets'⟩ := h.opened
  -- one more bracket on both stacks, each at the place of its token
  have hopened : OpenedAlike stage.bracket (depth + 1) outer outer'
      (s.current.loc :: s.brackets) (t.current.loc :: t.brackets) :=
    ⟨_ :: inner, _ :: inner', .cons (stage.opens h.current) hinner, by simp [hlength],
      by simp [hbrackets], by simp [hbrackets']⟩
  have habreast : Abreast stage (depth + 1) outer outer'
      { s with rest := s.rest.tail, brackets := s.current.loc :: s.brackets }
      { t with rest := t.rest.tail, brackets := t.current.loc :: t.brackets } :=
    { h.tail with opened := hopened }
  exact stay habreast hloc

/-- Both miss the same token. -/
theorem missing (h : Abreast stage depth outer outer' s t) (haround : stage.around outer outer')
    (expected : TokenKind) :
    Agrees (α := α) stage outer outer' after (.error (s.missing expected) s)
      (fun _ => .error (t.missing expected) t) :=
  .fail h (h.faultAt haround (.unmatchedDelimiter (stage.like.loc h.current)))

/-- Both close a bracket. -/
theorem closeBracket (h : Abreast stage (depth + 1) outer outer' s t)
    (haround : stage.around outer outer') (closer : TokenKind) :
    Agrees stage outer outer' depth (Parse.closeBracket closer s)
      (fun _ => Parse.closeBracket closer t) := by
  have hloc : Located.Like stage.like.location s.current.loc t.current.loc :=
    stage.like.loc h.current
  simp only [closeBracket_eq, stage.like.kind_eq h.current]
  split
  · -- the bracket that is closed is one of those opened within, not one of those around
    obtain ⟨inner, inner', hinner, hlength, hbrackets, hbrackets'⟩ := h.opened
    cases hinner with
    | nil => simp at hlength
    | @cons _ _ inner inner' _ hinner =>
      have habreast : Abreast stage depth outer outer'
          { s with rest := s.rest.tail, brackets := s.brackets.tail }
          { t with rest := t.rest.tail, brackets := t.brackets.tail } :=
        { h.tail with
          opened := ⟨inner, inner', hinner, by simpa using hlength, by simp [hbrackets],
            by simp [hbrackets']⟩ }
      exact stay habreast hloc
  · exact missing h haround closer

/-- After a failed attempt both readers are back where it began. -/
theorem attempt {m : Parse α} {m' : Nat → Parse α} (h : Abreast stage depth outer outer' s t)
    (hm : Agrees stage s.brackets t.brackets 0 (m s) (fun n => m' n t)) :
    Agrees stage outer outer' depth (m.attempt s) (fun n => (m' n).attempt t) := by
  refine within h ?_
  unfold Parse.attempt
  revert hm
  generalize m s = r
  rintro (⟨value, abreast, eventually⟩ |
    @⟨e, e', s', failures', _, error, stop, brackets, known, eventually⟩ | hfinal)
  · exact .ok (.some value) abreast
      (eventually.mono fun n hn => by rw [show m' n t = _ from hn])
  · dsimp only
    split
    · -- the brackets opened since the start are just those that going back drops
      rename_i he
      have hback : ∀ {bs : List Location} {u : State}, bs <:+ u.brackets →
          u.brackets.drop (u.brackets.length - bs.length) = bs := by
        rintro bs u ⟨inner, hinner⟩
        simp [← hinner]
      have habreast : Abreast stage 0 s.brackets t.brackets (s'.rewind s.mark)
          ⟨t.rest, stage.stop', t.brackets, failures'⟩ :=
        { rest := h.rest
          suffix := h.suffix
          stop := stop
          stop' := rfl
          opened := ⟨[], [], .nil, rfl, hback brackets, rfl⟩
          known := known }
      refine .ok .none habreast (eventually.mono ?_)
      rintro n ⟨t', ht', hstop, hbrackets, hfailures⟩
      rw [show m' n t = _ from ht']
      simp only [SyntaxError.isRecoverable_eq_of_like error, he, if_true, State.rewind, State.mark,
        hback hbrackets, hstop, hfailures]
    · rename_i he
      refine .error error stop brackets known (eventually.mono ?_)
      rintro n ⟨t', ht', hprops⟩
      refine ⟨t', ?_, hprops⟩
      rw [show m' n t = _ from ht']
      simp only [SyntaxError.isRecoverable_eq_of_like error, he, Bool.false_eq_true, if_false]
  · -- no attempt goes back once there is no room
    simp only [hfinal, Bool.false_eq_true, if_false]
    exact .final hfinal

/-- Loops agree if their first turns do and if they go on so from further on. -/
theorem iterate_of_first {turn : α → Parse (Turn α β)} {turn' : Nat → α → Parse (Turn α β)}
    {a a' : α} (h : Abreast stage depth outer outer' s t) (haround : stage.around outer outer')
    (hfirst : Agrees stage outer outer' depth (turn a s) (fun n => turn' n a' t))
    (hrest : ∀ a a' s' t', s'.rest.length < s.rest.length → Located.Like stage.like.location a a' →
      Abreast stage depth outer outer' s' t' →
      Agrees stage outer outer' depth (Parse.iterate turn a s')
        (fun n => Parse.iterate (turn' n) a' t')) :
    Agrees stage outer outer' depth (Parse.iterate turn a s)
      (fun n => Parse.iterate (turn' n) a' t) := by
  unfold Parse.iterate
  revert hfirst
  generalize turn a s = r
  rintro (@⟨next, next', s', t', _, value, abreast, eventually⟩ |
    ⟨error, stop, brackets, known, eventually⟩ | hfinal)
  · cases value with
    | done hb =>
      exact .ok hb abreast (eventually.mono fun n hn => by rw [show turn' n a' t = _ from hn])
    | again ha =>
      have hlength : t'.rest.length < t.rest.length ↔ s'.rest.length < s.rest.length := by
        rw [abreast.rest.length_eq, h.rest.length_eq]
      dsimp only
      split
      · -- both go on
        rename_i hlt
        refine (hrest _ _ _ _ hlt ha abreast).congr (eventually.mono fun n hn => ?_)
        rw [show turn' n a' t = _ from hn]
        exact if_pos (hlength.mpr hlt)
      · -- both stop with like errors at having read nothing
        rename_i hlt
        refine (fail abreast (abreast.unexpected haround)).congr (eventually.mono fun n hn => ?_)
        rw [show turn' n a' t = _ from hn]
        exact if_neg (hlength.not.mpr hlt)
  · -- a turn that fails ends the loop
    refine .error error stop brackets known (eventually.mono ?_)
    rintro n ⟨t', ht', hprops⟩
    exact ⟨t', by rw [show turn' n a' t = _ from ht'], hprops⟩
  · exact .final hfinal

/-- Turns that keep the readers abreast do so together. -/
theorem iterate {turn : α → Parse (Turn α β)} {turn' : Nat → α → Parse (Turn α β)}
    (haround : stage.around outer outer')
    (hturn : ∀ a a' s t, Located.Like stage.like.location a a' →
      Abreast stage depth outer outer' s t →
      Agrees stage outer outer' depth (turn a s) (fun n => turn' n a' t))
    {a a' : α} (ha : Located.Like stage.like.location a a')
    (h : Abreast stage depth outer outer' s t) :
    Agrees stage outer outer' depth (Parse.iterate turn a s)
      (fun n => Parse.iterate (turn' n) a' t) := by
  -- induction on what remains of the input, which every turn but the last makes shorter
  induction hn : s.rest.length using Nat.strongRecOn generalizing a a' s t with
  | _ n ih =>
    subst hn
    exact iterate_of_first h haround (hturn a a' s t ha h) fun _ _ s' _ hlt ha' h' =>
      ih _ hlt ha' h' rfl

end Agrees

/-! ## Derivations -/

/-- The steps of the second reader keep up with the step of the first. -/
structure KeepsUp (stage : Stage) (m : Parse α) (m' : Nat → Parse α) : Prop where
  agrees : ∀ {outer outer' : List Location} {s t : State}, stage.around outer outer' →
    Abreast stage 0 outer outer' s t → Agrees stage outer outer' 0 (m s) (fun n => m' n t)

variable {table : OperatorTable} {expr : Precedence → Parse Expr}
  {expr' : Nat → Precedence → Parse Expr} {here : Option (Token × Token)} {passed : Prop}
  {gains : α → Prop}

/-- What a derivation says about its two readers, where their tokens are known. -/
theorem Parallel.agrees_here {m : Parse α} {m' : Nat → Parse α}
    (h : Parallel stage.like table expr expr' here passed before after gains m m')
    (hexpr : ∀ p, KeepsUp stage (expr p) (fun n => expr' n p))
    (haround : stage.around outer outer') (hs : Abreast stage before outer outer' s t)
    (hhere : ∀ u ∈ here, u = (s.current, t.current)) :
    Agrees stage outer outer' after (m s) (fun n => m' n t) := by
  -- induction on how the steps are parallel; operands are read within all that their rule has
  -- opened
  induction h generalizing outer outer' s t with
  | pure value progress => exact .stay hs value
  | bind first second ih ih' =>
    exact .bind (ih haround hs hhere) fun a a' s' t' ha hs' =>
      ih' a a' ha haround hs' fun u hu => nomatch hu
  | peek next ih =>
    exact ih _ _ hs.current hhere haround hs fun u hu => (Option.some.inj hu).symm
  | advance => exact .stay hs.tail (stage.like.loc hs.current)
  | openBracket opens => exact .openBracket hs
  | closeBracket closer => exact .closeBracket hs haround closer
  | atFinalEnd =>
    refine .stay hs (?_ : _ = _)
    rw [stage.like.kind_eq hs.current, hs.isEmpty_eq haround]
  | throw token fault error => exact .fail hs error
  | unexpected => exact .fail hs (hs.unexpected haround)
  | missing unmatched => exact .missing hs haround _
  | result token fault result next ih =>
    cases result with
    | ok ha => exact ih _ _ ha haround hs hhere
    | error he => exact .fail hs he
  | expr p => exact .within hs ((hexpr p).agrees (hs.around haround) hs.outward)
  | attempt step ih =>
    exact .attempt hs (ih (hs.around haround) hs.outward fun u hu => nomatch hu)
  | iterate first next ih ih' =>
    exact .iterate_of_first hs haround (ih haround hs hhere) fun b b' s' t' _ hb hs' =>
      .iterate haround (fun b b' s t hb hs => ih' b b' hb haround hs fun u hu => nomatch hu) hb hs'
  | weaken step known less progress ih =>
    exact ih haround hs fun u hu => hhere u (known u hu)

/-- What a derivation says about its two readers. -/
theorem Parallel.keepsUp {m : Parse α} {m' : Nat → Parse α}
    (h : Parallel stage.like table expr expr' none passed 0 0 gains m m')
    (hexpr : ∀ p, KeepsUp stage (expr p) (fun n => expr' n p)) : KeepsUp stage m m' :=
  ⟨fun haround hs => h.agrees_here hexpr haround hs fun _ hu => nomatch hu⟩

/-- Leading forms keep readers abreast. -/
theorem keepsUp_leading (hexpr : ∀ p, KeepsUp stage (expr p) (fun n => expr' n p)) :
    KeepsUp stage (leading table expr) (fun n => leading table (expr' n)) := by
  have h : Parallel stage.like table expr expr' none False 0 0 (fun _ => True)
      (leading table expr) (fun n => leading table (expr' n)) := parallel_leading
  exact h.keepsUp hexpr

/-- So do chains of operators. -/
theorem keepsUp_chain (hexpr : ∀ p, KeepsUp stage (expr p) (fun n => expr' n p))
    (p : Precedence) : KeepsUp stage (chain table expr p) (fun n => chain table (expr' n) p) := by
  have h : Parallel stage.like table expr expr' none False 0 0 (fun _ => True)
      (chain table expr p) (fun n => chain table (expr' n) p) := parallel_chain p
  exact h.keepsUp hexpr

/-- So do whole inputs. -/
theorem keepsUp_program (hexpr : ∀ p, KeepsUp stage (expr p) (fun n => expr' n p)) :
    KeepsUp stage (iterate (programTurn expr) [])
      (fun n => iterate (programTurn (expr' n)) []) := by
  have h : Parallel stage.like .empty expr expr' none False 0 0 (fun _ => False)
      (iterate (programTurn expr) []) (fun n => iterate (programTurn (expr' n)) []) :=
    .loop (fun _ _ => parallel_programTurn) .nil
  exact h.keepsUp hexpr

end Symbolic.Reader
