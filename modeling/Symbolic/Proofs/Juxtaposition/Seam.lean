import Symbolic.Proofs.Reader.PairedRules
import Symbolic.Proofs.Reader.Progress
import Symbolic.Proofs.Reader.Yields

/-!
# Two operands with and without a sign between them

One reader goes over tokens that fall into two at a seam, the other over the same tokens with the
sign of a product at the seam. To the left of the seam and to the right of it the readers see the
same. Right at it they do not, but they only come there after an atom or a closing bracket, where
little can be done: no step but the one that extends an operand passes over the sign or reads what
is to the right.

What the two remember corresponds, although they count the tokens that remain differently to the
left of the seam, and although they may blame different tokens for a failure.

## Key results

- `Seam`, `Facing`: the tokens, and where the two readers are
- `Crosses`: steps after which the readers are in such places again, or have both failed
- `Crosses.bind`, `Crosses.attempt`, `Crosses.remember`, `Crosses.iterate`: steps put together
-/

namespace Symbolic

/-- Whether a token of the kind is an atom or a closing bracket, so that it may be the last one of
    an operand. -/
def TokenKind.completes (kind : TokenKind) : Bool :=
  kind.isAtom || kind.balance == 1

namespace Juxtaposition

open Reader Parse

/-- Tokens with a seam between the last token of an operand and a first token that neither extends
    an operand nor ends it, and the sign of a product. -/
structure Seam where
  before : List Token
  last : Token
  sign : Token
  first : Token
  after : List Token
  completes : last.kind.completes = true
  isTimes : sign.kind = .times
  unextended : OperatorTable.standard.trailing? first.kind = none
  goesOn : first.kind.endsOperand = false

namespace Seam

/-- The tokens to the left of the seam. -/
def left (seam : Seam) : List Token :=
  seam.before ++ [seam.last]

/-- The tokens to the right of the seam. -/
def right (seam : Seam) : List Token :=
  seam.first :: seam.after

/-- What is left to read, without the sign and with it. If the place is `clear`, it is not the seam
    itself. -/
inductive Place (seam : Seam) (clear : Prop) : List Token → List Token → Prop where
  | left {tokens : List Token} (nonempty : tokens ≠ []) (suffix : tokens <:+ seam.left) :
      Place seam clear (tokens ++ seam.right) (tokens ++ seam.sign :: seam.right)
  | middle (unclear : ¬clear) : Place seam clear seam.right (seam.sign :: seam.right)
  | right {tokens : List Token} (suffix : tokens <:+ seam.right) : Place seam clear tokens tokens

/-- The occasion that the reader with the sign has where the other has the given one. -/
def shift (seam : Seam) (occasion : Occasion) : Occasion :=
  { occasion with
    remaining := if occasion.remaining ≤ seam.right.length then occasion.remaining
      else occasion.remaining + 1 }

/-- The same expression has failed, for a reason of the same sort. -/
def Corresponds (seam : Seam) (failure failure' : Occasion × SyntaxError) : Prop :=
  failure'.1 = seam.shift failure.1 ∧ failure'.2.isRecoverable = failure.2.isRecoverable

variable {seam : Seam} {clear clear' : Prop} {rest rest' : List Token}

/-- The first token behind the seam does not end an operand. -/
theorem first_ne_of_endsOperand {kind : TokenKind} (h : kind.endsOperand = true) :
    seam.first.kind ≠ kind := by
  rintro rfl
  rw [seam.goesOn] at h
  cases h

/-- Nor does it extend one. -/
theorem first_ne_of_trailing {kind : TokenKind} {op : Operator}
    (h : OperatorTable.standard.trailing? kind = some op) : seam.first.kind ≠ kind := by
  rintro rfl
  rw [seam.unextended] at h
  cases h

namespace Place

/-- Places correspond under any weaker condition. -/
theorem weaken (h : seam.Place clear rest rest') (himp : clear' → clear) :
    seam.Place clear' rest rest' := by
  cases h with
  | left nonempty suffix => exact .left nonempty suffix
  | middle unclear => exact .middle fun h => unclear (himp h)
  | right suffix => exact .right suffix

/-- The readers are at the same place, unless they are at the seam. -/
theorem cases (h : seam.Place clear rest rest') :
    seam.Place True rest rest' ∨ ¬clear ∧ rest = seam.right ∧ rest' = seam.sign :: seam.right := by
  cases h with
  | left nonempty suffix => exact .inl (.left nonempty suffix)
  | middle unclear => exact .inr ⟨unclear, rfl, rfl⟩
  | right suffix => exact .inl (.right suffix)

/-- Away from the seam the next tokens are the same. -/
theorem head?_eq (h : seam.Place True rest rest') : rest'.head? = rest.head? := by
  cases h with
  | left nonempty suffix =>
    obtain ⟨first, tokens, rfl⟩ := List.exists_cons_of_ne_nil nonempty
    rfl
  | middle unclear => exact absurd trivial unclear
  | right suffix => rfl

/-- To the left of the seam one more token remains. -/
theorem length_eq (h : seam.Place True rest rest') :
    rest'.length = if rest.length ≤ seam.right.length then rest.length else rest.length + 1 := by
  cases h with
  | @left tokens nonempty suffix =>
    have hpos := List.length_pos_of_ne_nil nonempty
    rw [if_neg (by simp only [List.length_append]; omega)]
    simp only [List.length_append, List.length_cons]
    omega
  | middle unclear => exact absurd trivial unclear
  | right suffix => rw [if_pos suffix.length_le]

/-- Past the token that is next, the readers may be at the seam. -/
theorem tail (h : seam.Place True rest rest') : seam.Place False rest.tail rest'.tail := by
  cases h with
  | left nonempty suffix =>
    obtain ⟨first, tokens, rfl⟩ := List.exists_cons_of_ne_nil nonempty
    cases tokens with
    | nil => exact .middle id
    | cons second tokens =>
      exact .left (List.cons_ne_nil _ _) ((List.suffix_cons first _).trans suffix)
  | middle unclear => exact absurd trivial unclear
  | right suffix => exact .right ((List.tail_suffix _).trans suffix)

/-- They are not, if that was no token that an operand can end with. -/
theorem tail_clear (h : seam.Place True rest rest')
    (hhead : ∀ t ∈ rest.head?, t.kind.completes = false) :
    seam.Place True rest.tail rest'.tail := by
  cases h with
  | left nonempty suffix =>
    obtain ⟨first, tokens, rfl⟩ := List.exists_cons_of_ne_nil nonempty
    cases tokens with
    | nil =>
      -- the last token to the left of the seam is one
      obtain rfl : first = seam.last := by
        unfold Seam.left at suffix
        obtain ⟨passed, hpassed⟩ := suffix
        simpa using congrArg List.getLast? hpassed
      have hfalse := hhead seam.last rfl
      rw [seam.completes] at hfalse
      cases hfalse
    | cons second tokens =>
      exact .left (List.cons_ne_nil _ _) ((List.suffix_cons first _).trans suffix)
  | middle unclear => exact absurd trivial unclear
  | right suffix => exact .right ((List.tail_suffix _).trans suffix)

end Place

/-! ## Memories that correspond -/

/-- Occasions are moved apart. -/
theorem shift_injective (seam : Seam) : Function.Injective seam.shift := by
  rintro ⟨remaining, p, depth, innermost⟩ ⟨remaining', p', depth', innermost'⟩ h
  simp only [shift, Occasion.mk.injEq] at h ⊢
  obtain ⟨hremaining, rest⟩ := h
  refine ⟨?_, rest⟩
  -- lengths to the right stay as they are, and those to the left stay above them
  split at hremaining <;> split at hremaining <;> omega

/-- Either both readers remember a failure on an occasion, or neither does. -/
theorem lookup_cases {failures failures' : List (Occasion × SyntaxError)}
    (h : List.Forall₂ seam.Corresponds failures failures') (occasion : Occasion) :
    failures.lookup occasion = none ∧ failures'.lookup (seam.shift occasion) = none ∨
      ∃ e e', failures.lookup occasion = some e ∧
        failures'.lookup (seam.shift occasion) = some e' ∧ e'.isRecoverable = e.isRecoverable := by
  -- the failures stand in the same order, so the first that matches is the same for both
  induction h with
  | nil => exact .inl ⟨rfl, rfl⟩
  | @cons failure failure' failures failures' hfirst _ ih =>
    obtain ⟨known, e⟩ := failure
    obtain ⟨known', e'⟩ := failure'
    obtain ⟨rfl, hrecoverable⟩ := hfirst
    by_cases heq : occasion = known
    · subst heq
      exact .inr ⟨e, e', List.lookup_cons_self, List.lookup_cons_self, hrecoverable⟩
    · have hne : (occasion == known) = false := beq_false_of_ne heq
      have hne' : (seam.shift occasion == seam.shift known) = false :=
        beq_false_of_ne fun h => heq (seam.shift_injective h)
      simpa only [List.lookup_cons, hne, hne'] using ih

end Seam

/-! ## Two readers -/

/-- The two readers are at the same place, or about the same at the seam, and remember the same
    failures. -/
structure Facing (seam : Seam) (clear : Prop) (s t : State) : Prop where
  place : seam.Place clear s.rest t.rest
  stop : t.stop = s.stop
  brackets : t.brackets = s.brackets
  known : List.Forall₂ seam.Corresponds s.failures t.failures

variable {seam : Seam} {clear clear' : Prop} {s t : State} {α β : Type}

namespace Facing

/-- Readers face each other under any weaker condition. -/
theorem weaken (h : Facing seam clear s t) (himp : clear' → clear) : Facing seam clear' s t :=
  ⟨h.place.weaken himp, h.stop, h.brackets, h.known⟩

/-- Away from the seam the current tokens are the same. -/
theorem current_eq (h : Facing seam True s t) : t.current = s.current := by
  rw [State.current, State.current, h.place.head?_eq, h.stop]

/-- What one reader is about to remember corresponds to what the other is about to. -/
theorem occasion_eq (h : Facing seam True s t) (p : Precedence) :
    t.occasion p = seam.shift (s.occasion p) := by
  rw [State.occasion, State.occasion, Seam.shift, h.place.length_eq, h.brackets]

/-- Past the token that is next, the readers may be at the seam. -/
theorem pass (h : Facing seam True s t) {brackets brackets' : List Location}
    (hbrackets : brackets' = brackets) :
    Facing seam False { s with rest := s.rest.tail, brackets }
      { t with rest := t.rest.tail, brackets := brackets' } :=
  ⟨h.place.tail, h.stop, hbrackets, h.known⟩

/-- Both pass over a token that completes no operand, and are away from the seam still. -/
theorem pass_clear (h : Facing seam True s t) (hkind : s.current.kind.completes = false)
    {brackets brackets' : List Location} (hbrackets : brackets' = brackets) :
    Facing seam True { s with rest := s.rest.tail, brackets }
      { t with rest := t.rest.tail, brackets := brackets' } := by
  refine ⟨h.place.tail_clear fun token htoken => ?_, h.stop, hbrackets, h.known⟩
  rwa [State.current, htoken] at hkind

/-- The readers see the same, unless they are at the seam, where each sees what it has there. -/
theorem cases (h : Facing seam clear s t) :
    Facing seam True s t ∨ ¬clear ∧ s.current = seam.first ∧ t.current = seam.sign ∧
      s.rest = seam.right ∧ t.rest = seam.sign :: seam.right := by
  rcases h.place.cases with hplace | ⟨hclear, hs, ht⟩
  · exact .inl ⟨hplace, h.stop, h.brackets, h.known⟩
  · refine .inr ⟨hclear, ?_, ?_, hs, ht⟩
    · rw [State.current, hs]
      rfl
    · rw [State.current, ht]
      rfl

end Facing

/-- Both steps succeed with the same value, and leave the readers facing each other, not at the seam
    if the value is one of which `post` holds; or both fail, for reasons of the same sort. -/
inductive Meets (seam : Seam) (post : α → Prop) :
    EStateM.Result SyntaxError State α → EStateM.Result SyntaxError State α → Prop where
  | ok {a : α} {s t : State} (facing : Facing seam (post a) s t) :
      Meets seam post (.ok a s) (.ok a t)
  | error {e e' : SyntaxError} {s t : State} (recoverable : e'.isRecoverable = e.isRecoverable)
      (stop : t.stop = s.stop) (brackets : t.brackets = s.brackets)
      (known : List.Forall₂ seam.Corresponds s.failures t.failures) :
      Meets seam post (.error e s) (.error e' t)

/-- Two failures correspond when both or neither can be recovered from. -/
theorem Facing.fail {post : α → Prop} (h : Facing seam clear s t) {e e' : SyntaxError}
    (hrecoverable : e'.isRecoverable = e.isRecoverable) :
    Meets seam post (.error e s) (.error e' t) :=
  .error hrecoverable h.stop h.brackets h.known

/-- What is known of the results may be weakened. -/
theorem Meets.weaken {post post' : α → Prop} {r r' : EStateM.Result SyntaxError State α}
    (h : Meets seam post' r r') (himp : ∀ a, post a → post' a) : Meets seam post r r' := by
  cases h with
  | ok facing => exact .ok (facing.weaken (himp _))
  | error recoverable stop brackets known => exact .error recoverable stop brackets known

/-- The readers that face each other do so again after the step, or it fails for both. They are not
    at the seam before the step if `clear` holds, and the next token is `here` if that is known. -/
structure Crosses (seam : Seam) (here : Option TokenKind) (clear : Prop) (post : α → Prop)
    (m : Parse α) : Prop where
  meets : ∀ {s t}, Facing seam clear s t → (∀ kind ∈ here, s.current.kind = kind) →
    Meets seam post (m s) (m t)

/-- A rule of the grammar that starts before a token of the kind, and may end at the seam. -/
abbrev Rule (seam : Seam) (kind : TokenKind) (m : Parse α) : Prop :=
  Crosses seam (some kind) True (fun _ => False) m

namespace Crosses

variable {here here' : Option TokenKind} {kind : TokenKind} {post post' middle : α → Prop}
  {posts : β → Prop} {m : Parse α} {f : α → Parse β}

/-- What is known of a step may be weakened, and what it needs strengthened. -/
theorem weaken (hm : Crosses seam here' clear' post' m) (hhere : ∀ kind ∈ here', kind ∈ here)
    (hclear : clear' → clear) (hpost : ∀ a, post a → post' a) :
    Crosses seam here clear post m :=
  ⟨fun hfacing hcurrent => (hm.meets (hfacing.weaken hclear) fun kind hkind =>
    hcurrent kind (hhere kind hkind)).weaken hpost⟩

/-- A step that needs nothing known about the next token. -/
theorem meets_of_facing (hm : Crosses seam none clear post m) (hfacing : Facing seam clear s t) :
    Meets seam post (m s) (m t) :=
  hm.meets hfacing fun _ h => nomatch h

/-- What is so wherever the readers are. -/
theorem anywhere (hm : Crosses seam none False post m) : Crosses seam here clear post m :=
  hm.weaken (fun _ h => nomatch h) False.elim fun _ => id

/-- What is so away from the seam. -/
theorem of_clear (hclear : clear) (hm : Crosses seam none True post m) :
    Crosses seam here clear post m :=
  hm.weaken (fun _ h => nomatch h) (fun _ => hclear) fun _ => id

/-! ## Steps put together -/

/-- A step that does nothing. -/
theorem pure (a : α) (h : post a → clear) : Crosses seam here clear post (pure a) :=
  ⟨fun hfacing _ => .ok (hfacing.weaken h)⟩

/-- One step after another. -/
theorem bind (hm : Crosses seam here clear middle m)
    (hf : ∀ a, Crosses seam none (middle a) posts (f a)) :
    Crosses seam here clear posts (m >>= f) := by
  refine ⟨fun {s t} hfacing hhere => ?_⟩
  have hmeets := hm.meets hfacing hhere
  show Meets seam posts (EStateM.bind m f s) (EStateM.bind m f t)
  unfold EStateM.bind
  revert hmeets
  generalize m s = r
  generalize m t = r'
  rintro (hnext | ⟨recoverable, stop, brackets, known⟩)
  · exact (hf _).meets_of_facing hnext
  · exact .error recoverable stop brackets known

/-- A step with its result mapped. -/
theorem map (g : α → β) (hm : Crosses seam here clear middle m)
    (hpost : ∀ a, posts (g a) → middle a) : Crosses seam here clear posts (g <$> m) := by
  simp only [map_eq_pure_bind]
  exact hm.bind fun a => .pure _ (hpost a)

/-- Looking at the next token away from the seam. -/
theorem peek {f : Token → Parse α}
    (hnext : ∀ token : Token, (∀ kind ∈ here, token.kind = kind) →
      Crosses seam (some token.kind) True post (f token)) :
    Crosses seam here True post (Parse.peek >>= f) := by
  refine ⟨fun {s t} hfacing hhere => ?_⟩
  rw [peek_bind, peek_bind, hfacing.current_eq]
  exact (hnext s.current hhere).meets hfacing fun kind hkind => Option.some.inj hkind

/-- Looking at the next token, where this may be at the seam. -/
theorem peek_anywhere {f : Token → Parse α}
    (hnext : ∀ token : Token, Crosses seam (some token.kind) True post (f token))
    (hseam : ∀ {s t}, Facing seam False s t → s.rest = seam.right →
      t.rest = seam.sign :: seam.right → Meets seam post (f seam.first s) (f seam.sign t)) :
    Crosses seam none False post (Parse.peek >>= f) := by
  refine ⟨fun {s t} hfacing _ => ?_⟩
  rw [peek_bind, peek_bind]
  -- away from the seam there is one token to look at, at the seam there are two
  rcases hfacing.cases with hclear | ⟨-, hfirst, hsign, hs, ht⟩
  · rw [hclear.current_eq]
    exact (hnext s.current).meets hclear fun kind hkind => Option.some.inj hkind
  · rw [hfirst, hsign]
    exact hseam hfacing hs ht

/-- Looking at the next token, where a rule does not tell the two tokens at the seam apart. -/
theorem peek_alike {f : Token → Parse α}
    (hnext : ∀ token : Token, Crosses seam (some token.kind) True post (f token))
    (hseam : f seam.sign = f seam.first)
    (hfirst : Crosses seam none False post (f seam.first)) :
    Crosses seam none False post (Parse.peek >>= f) :=
  .peek_anywhere hnext fun hfacing _ _ => by
    rw [hseam]
    exact hfirst.meets_of_facing hfacing

/-! ## Tokens -/

/-- A step over a token, which may lead to the seam. -/
theorem advance : Crosses seam here True (fun _ => False) Parse.advance := by
  refine ⟨fun {s t} hfacing _ => ?_⟩
  rw [Parse.advance, Parse.advance, hfacing.current_eq]
  exact .ok (hfacing.pass hfacing.brackets)

/-- Past a token that no operand ends with, the readers are not at the seam. -/
theorem advance_clear (hkind : kind.completes = false) :
    Crosses seam (some kind) True (fun _ => True) Parse.advance := by
  refine ⟨fun {s t} hfacing hhere => ?_⟩
  rw [Parse.advance, Parse.advance, hfacing.current_eq]
  exact .ok (hfacing.pass_clear (hhere kind rfl ▸ hkind) hfacing.brackets)

/-- An opening bracket, which does not lead to the seam. -/
theorem openBracket (hopens : kind.closer?.isSome) :
    Crosses seam (some kind) True (fun _ => True) Parse.openBracket := by
  have hkind : kind.completes = false := by
    revert hopens
    cases kind <;> decide
  refine ⟨fun {s t} hfacing hhere => ?_⟩
  rw [Parse.openBracket, Parse.openBracket, hfacing.current_eq, hfacing.brackets]
  exact .ok (hfacing.pass_clear (hhere kind rfl ▸ hkind) rfl)

/-- The next token is not expected: both readers fail. -/
theorem unexpected : Crosses seam here clear post (Parse.unexpected : Parse α) :=
  ⟨fun {s t} hfacing _ => hfacing.fail <| by
    rw [isRecoverable_unexpected, isRecoverable_unexpected]⟩

/-- An expected token is missing: both readers fail. -/
theorem missing (expected : TokenKind) :
    Crosses seam here clear post (Parse.missing expected : Parse α) :=
  ⟨fun {s t} hfacing _ => hfacing.fail <| by
    rw [isRecoverable_missing, isRecoverable_missing]⟩

/-- Both readers fail the same way. -/
theorem throw (e : SyntaxError) :
    Crosses seam here clear post (MonadExcept.throw e : Parse α) :=
  ⟨fun hfacing _ => hfacing.fail rfl⟩

/-- A step goes on after a result that does not depend on the state. -/
theorem ofResult_bind {γ : Type} (result : Except SyntaxError γ) {f : γ → Parse β}
    (hf : ∀ a, Crosses seam here clear posts (f a)) :
    Crosses seam here clear posts (Parse.ofResult result >>= f) := by
  cases result with
  | error e => exact ⟨fun hfacing _ => hfacing.fail rfl⟩
  | ok a => exact hf a

/-- A delimiter that does not stand at the seam. -/
theorem expect {delimiter : TokenKind} (hsign : delimiter ≠ .times)
    (hfirst : seam.first.kind ≠ delimiter) :
    Crosses seam here clear (fun _ => delimiter.completes = false) (Parse.expect delimiter) := by
  refine .anywhere ?_
  unfold Parse.expect
  refine .peek_anywhere (fun token => ?_) fun hfacing _ _ => ?_
  · split
    · rename_i hkind
      -- what is past the delimiter may be the seam only if an operand can end with it
      cases hcompletes : token.kind.completes with
      | true => exact advance.weaken (fun _ => id) id fun _ hfalse => by simp_all
      | false => exact (advance_clear hcompletes).weaken (fun _ => id) id fun _ _ => trivial
    · exact .missing delimiter
  · -- at the seam both miss it
    rw [if_neg hfirst, if_neg (by rw [seam.isTimes]; exact hsign.symm)]
    exact hfacing.fail (by rw [isRecoverable_missing, isRecoverable_missing])

/-- A closing bracket does not stand there either. -/
theorem closeBracket {closer : TokenKind} (hcloses : closer.balance = 1) :
    Crosses seam here clear (fun _ => False) (Parse.closeBracket closer) := by
  have hends : closer.endsOperand = true ∧ closer ≠ .times := by
    revert hcloses
    cases closer <;> decide
  refine .bind (expect hends.2 (seam.first_ne_of_endsOperand hends.1)) fun loc => ?_
  refine ⟨fun {s t} hfacing _ => ?_⟩
  show Meets seam (fun _ => False) (.ok loc { s with brackets := s.brackets.tail })
    (.ok loc { t with brackets := t.brackets.tail })
  exact .ok ⟨hfacing.place.weaken False.elim, hfacing.stop, congrArg List.tail hfacing.brackets,
    hfacing.known⟩

/-- The input does not end at the seam. -/
theorem atFinalEnd : Crosses seam here clear (fun _ => clear) Parse.atFinalEnd := by
  refine ⟨fun {s t} hfacing _ => ?_⟩
  have hend : (t.current.kind == .endOfInput) = (s.current.kind == .endOfInput) := by
    rcases hfacing.cases with hclear | ⟨-, hfirst, hsign, -, -⟩
    · rw [hclear.current_eq]
    · have hne : seam.first.kind ≠ .endOfInput := seam.first_ne_of_endsOperand rfl
      rw [hfirst, hsign, seam.isTimes, beq_false_of_ne hne]
      rfl
  rw [Parse.atFinalEnd, Parse.atFinalEnd, hend, hfacing.brackets]
  exact .ok hfacing

/-! ## Alternatives -/

/-- A step that has failed for both is taken back by both. -/
theorem attempt (hm : Crosses seam here True post m) :
    Crosses seam here True (fun _ => False) m.attempt := by
  refine ⟨fun {s t} hfacing hhere => ?_⟩
  have hmeets := hm.meets hfacing hhere
  unfold Parse.attempt
  revert hmeets
  generalize m s = r
  generalize m t = r'
  rintro (hnext | ⟨recoverable, stop, brackets, known⟩)
  · exact .ok (hnext.weaken False.elim)
  · dsimp only
    rw [recoverable]
    split
    · -- the readers stand where they stood before, but keep what they have learnt
      refine .ok ⟨hfacing.place.weaken fun _ => trivial, stop, ?_, known⟩
      simp only [State.rewind, State.mark, brackets, hfacing.brackets]
    · exact .error recoverable stop brackets known

/-- Both readers remember a failure, or neither does. -/
theorem remember (p : Precedence) (hm : Crosses seam here True post m) :
    Crosses seam here True post (Parse.remember p m) := by
  refine ⟨fun {s t} hfacing hhere => ?_⟩
  have hoccasion := hfacing.occasion_eq p
  have hmeets := hm.meets hfacing hhere
  unfold Parse.remember
  rcases Seam.lookup_cases hfacing.known (s.occasion p) with
    ⟨hs, ht⟩ | ⟨e, e', hs, ht, hrecoverable⟩
  · -- neither has been here before, so both try
    rw [hoccasion, hs, ht]
    revert hmeets
    generalize m s = r
    generalize m t = r'
    rintro (hnext | @⟨e, e', s', t', recoverable, stop, brackets, known⟩)
    · exact .ok hnext
    · dsimp only
      rw [recoverable]
      split
      · exact .error recoverable stop brackets (.cons ⟨rfl, recoverable⟩ known)
      · exact .error recoverable stop brackets known
  · -- both fail as they did before, where they are
    rw [hoccasion, hs, ht]
    exact hfacing.fail hrecoverable

/-! ## Repetitions -/

/-- A repetition whose turns get ahead goes on for both readers, or for neither. -/
theorem iterate {turn : α → Parse (Turn α β)} (hprogress : Progresses turn)
    (hturn : ∀ a, Crosses seam none clear (Turn.Holds (fun _ => clear) posts) (turn a)) (a : α) :
    Crosses seam here clear posts (Parse.iterate turn a) := by
  refine ⟨fun {s t} hfacing hhere => ?_⟩
  clear hhere
  -- induction on what the first reader has left, which every turn but the last makes shorter
  induction hn : s.rest.length using Nat.strongRecOn generalizing a s t with
  | _ n ih =>
    subst hn
    have hmeets := (hturn a).meets_of_facing hfacing
    have hlt := hprogress a
    unfold Parse.iterate
    generalize hs : turn a s = r at hmeets
    generalize ht : turn a t = r' at hmeets
    cases hmeets with
    | error recoverable stop brackets known => exact .error recoverable stop brackets known
    | @ok outcome s' t' hnext =>
      cases outcome with
      | done b => exact .ok hnext
      | again a' =>
        have hs' := hlt a' s s' hs
        have ht' := hlt a' t t' ht
        simp only [hs', ht', if_true]
        exact ih _ hs' a' hnext rfl

end Crosses

end Juxtaposition

end Symbolic
