import Symbolic.Proofs.Lockstep.Balance

/-!
# What comes after a bracket does not show within it

Two readers without memory stand before the same tokens, which close more brackets than they open,
and which have different tokens after them. Until the last of those brackets is closed the readers
see the same, so they do the same, unless the first runs out of room: neither gets to the end of the
tokens that they have in common, as none of their steps closes more brackets than it opens.

## Key results

- `Stretch`, `Within`: two readers before the same tokens
- `Paired.meets`: a step within the tokens they have in common
- `meets_expression`: an expression that is read there
-/

namespace Symbolic.Reader

open Parse

variable {α β : Type}

/-- The tokens that two readers have in common, what comes after them, the ends of both inputs, the
    brackets around both readers, and how many of these the tokens close. -/
structure Stretch where
  tokens : List Token
  after : List Token
  after' : List Token
  stop : Location
  stop' : Location
  around : List Location
  around' : List Location
  depth : Nat
  depth_pos : 0 < depth
  endFree : ∀ t ∈ tokens, t.kind ≠ .endOfInput

variable {stretch : Stretch} {level before between after : Level} {s s' t t' : State}

/-- The readers stand at the same of the tokens, with the brackets of the level open within those
    around. What remains of the tokens closes all of them. -/
structure Within (stretch : Stretch) (level : Level) (s t : State) (inside : List Token)
    (inner : List Location) : Prop where
  suffix : inside <:+ stretch.tokens
  rest : s.rest = inside ++ stretch.after
  rest' : t.rest = inside ++ stretch.after'
  balanced : excess inside = level.total + stretch.depth
  brackets : s.brackets = inner ++ stretch.around
  brackets' : t.brackets = inner ++ stretch.around'
  length : inner.length = level.brackets
  stop : s.stop = stretch.stop
  stop' : t.stop = stretch.stop'
  forgetful : s.failures = []
  forgetful' : t.failures = []

/-- A reader that has failed with no fewer brackets open than there are around. -/
structure Astray (around : List Location) (stop : Location) (s : State) : Prop where
  outer : around <:+ s.brackets
  stop : s.stop = stop
  forgetful : s.failures = []

/-- What it has opened since the mark is forgotten with the rest. -/
theorem Astray.rewind_eq {around : List Location} {stop : Location} (h : Astray around stop s')
    (hbrackets : s.brackets = around) (hstop : s.stop = stop) (hfailures : s.failures = []) :
    s'.rewind s.mark = s := by
  obtain ⟨⟨opened, hopened⟩, hstop', hfailures'⟩ := h
  have hdrop : s'.brackets.drop (s'.brackets.length - s.brackets.length) = s.brackets := by
    rw [hbrackets, ← hopened, List.length_append, Nat.add_sub_cancel, List.drop_left]
  simp only [State.rewind, State.mark, hdrop, hstop', hfailures', ← hstop, ← hfailures]

/-- Both readers get the same value and go on in the same place, or they fail with the same error,
    or the first one runs out of room. -/
inductive Meet (stretch : Stretch) (level : Level) :
    EStateM.Result SyntaxError State α → EStateM.Result SyntaxError State α → Prop where
  | ok {v : α} {s t : State} {inside : List Token} {inner : List Location}
      (within : Within stretch level s t inside inner) : Meet stretch level (.ok v s) (.ok v t)
  | error {e : SyntaxError} {s t : State} (left : Astray stretch.around stretch.stop s)
      (right : Astray stretch.around' stretch.stop' t) :
      Meet stretch level (.error e s) (.error e t)
  | final {e : SyntaxError} {s : State} {r : EStateM.Result SyntaxError State α}
      (h : e.isRecoverable = false) : Meet stretch level (.error e s) r

namespace Within

variable {inside : List Token} {inner : List Location}

/-- The tokens in common are not all passed over. -/
theorem exists_cons (h : Within stretch level s t inside inner) :
    ∃ first rest, inside = first :: rest := by
  cases inside with
  | cons first rest => exact ⟨first, rest, rfl⟩
  | nil =>
    have hbalanced := h.balanced
    have hpos := stretch.depth_pos
    rw [excess_nil] at hbalanced
    omega

/-- Both readers stand before the same token. -/
theorem current_eq (h : Within stretch level s t inside inner) : t.current = s.current := by
  obtain ⟨first, rest, rfl⟩ := h.exists_cons
  rw [State.current, State.current, h.rest, h.rest']
  rfl

/-- Neither stands at the end of the input. -/
theorem ne_endOfInput (h : Within stretch level s t inside inner) :
    s.current.kind ≠ .endOfInput := by
  obtain ⟨first, rest, rfl⟩ := h.exists_cons
  rw [State.current, h.rest]
  exact stretch.endFree first (h.suffix.subset List.mem_cons_self)

/-- The first reader is within the brackets. -/
theorem left (h : Within stretch level s t inside inner) :
    Astray stretch.around stretch.stop s :=
  ⟨⟨inner, h.brackets.symm⟩, h.stop, h.forgetful⟩

/-- So is the second. -/
theorem right (h : Within stretch level s t inside inner) :
    Astray stretch.around' stretch.stop' t :=
  ⟨⟨inner, h.brackets'.symm⟩, h.stop', h.forgetful'⟩

/-- Both readers fail the same way. -/
theorem fail (h : Within stretch level s t inside inner) (e : SyntaxError) :
    Meet (α := α) stretch after (.error e s) (.error e t) :=
  .error h.left h.right

/-- An error about the current token is the same for both readers. -/
theorem faultAt_eq (h : Within stretch level s t inside inner) (e : SyntaxError) :
    t.faultAt e = s.faultAt e := by
  rw [State.faultAt, State.faultAt, h.current_eq, if_neg h.ne_endOfInput, if_neg h.ne_endOfInput]

/-- Both report the same token as unexpected. -/
theorem unexpected_eq (h : Within stretch level s t inside inner) :
    t.unexpected = s.unexpected := by
  rw [State.unexpected, State.unexpected, h.current_eq, h.faultAt_eq]

/-- Both report the same token in place of another. -/
theorem missing_eq (h : Within stretch level s t inside inner) (kind : TokenKind) :
    t.missing kind = s.missing kind := by
  rw [State.missing, State.missing, h.current_eq, h.faultAt_eq]

/-- Passing over a token, which may open a bracket or close one. -/
theorem pass (h : Within stretch before s t inside inner) {opened : List Location}
    (hlength : opened.length = after.brackets)
    (htotal : (after.total : Int) = before.total - s.current.kind.balance) :
    Within stretch after
      { s with rest := s.rest.tail, brackets := opened ++ stretch.around }
      { t with rest := t.rest.tail, brackets := opened ++ stretch.around' } inside.tail opened := by
  obtain ⟨first, rest, rfl⟩ := h.exists_cons
  have hcurrent : s.current = first := by
    rw [State.current, h.rest]
    rfl
  -- the token takes from the excess of the stretch what it adds to the brackets that are open
  have hbalanced : excess rest = after.total + stretch.depth := by
    have := h.balanced
    rw [excess_cons, ← hcurrent] at this
    omega
  exact
    { suffix := (List.suffix_cons _ _).trans h.suffix
      rest := by simp [h.rest]
      rest' := by simp [h.rest']
      balanced := hbalanced
      brackets := rfl
      brackets' := rfl
      length := hlength
      stop := h.stop
      stop' := h.stop'
      forgetful := h.forgetful
      forgetful' := h.forgetful' }

/-- Passing over a token that the reader does not keep track of. -/
theorem pass_plain (h : Within stretch before s t inside inner)
    (hbrackets : after.brackets = before.brackets)
    (htotal : (after.total : Int) = before.total - s.current.kind.balance) :
    Within stretch after { s with rest := s.rest.tail } { t with rest := t.rest.tail } inside.tail
      inner := by
  have hpass := h.pass (h.length.trans hbrackets.symm) htotal
  rwa [← h.brackets, ← h.brackets'] at hpass

/-- Both pass over the next token. -/
theorem advance (h : Within stretch before s t inside inner)
    (hbrackets : after.brackets = before.brackets)
    (htotal : (after.total : Int) = before.total - s.current.kind.balance) :
    Meet stretch after (Parse.advance s) (Parse.advance t) := by
  unfold Parse.advance
  rw [h.current_eq]
  exact .ok (h.pass_plain hbrackets htotal)

/-- Both open a bracket. -/
theorem openBracket (h : Within stretch level s t inside inner) {closer : TokenKind}
    (hopens : s.current.kind.closer? = some closer) :
    Meet stretch (level.opened closer) (Parse.openBracket s) (Parse.openBracket t) := by
  have hbalance := (balance_of_closer? hopens).1
  unfold Parse.openBracket
  rw [h.current_eq, h.brackets, h.brackets', ← List.cons_append, ← List.cons_append]
  refine .ok (h.pass ?_ ?_)
  · rw [List.length_cons, h.length, Level.brackets_opened]
  · rw [hbalance, Level.total_opened]
    omega

/-- Both pass over a token that they expect. -/
theorem expect (h : Within stretch before s t inside inner) {kind : TokenKind}
    (hbrackets : after.brackets = before.brackets)
    (htotal : (after.total : Int) = before.total - kind.balance) :
    Meet stretch after (Parse.expect kind s) (Parse.expect kind t) := by
  rw [expect_eq, expect_eq, h.current_eq, h.missing_eq]
  split
  · rename_i hkind
    exact .ok (h.pass_plain hbrackets (hkind ▸ htotal))
  · exact h.fail _

/-- The bracket that is closed is not one of those around. -/
theorem closeBracket (h : Within stretch (level.opened kind) s t inside inner)
    (hcloses : kind.balance = 1) :
    Meet stretch level (Parse.closeBracket kind s) (Parse.closeBracket kind t) := by
  rw [closeBracket_eq, closeBracket_eq, h.current_eq, h.missing_eq]
  split
  · rename_i hkind
    obtain _ | ⟨last, opened⟩ := inner
    · cases h.length
    · -- the bracket that is closed is one of those opened within the stretch
      have htail : s.brackets.tail = opened ++ stretch.around := by rw [h.brackets]; rfl
      have htail' : t.brackets.tail = opened ++ stretch.around' := by rw [h.brackets']; rfl
      rw [htail, htail']
      refine .ok (h.pass (Nat.succ.inj h.length) ?_)
      rw [hkind, hcloses, Level.total_opened]
      omega
  · exact h.fail _

end Within

namespace Meet

variable {m m' : Parse α} {f f' : α → Parse β}

/-- Both go on after a step. -/
theorem bind (hm : Meet stretch between (m s) (m' t))
    (hf : ∀ v s' t' inside inner, Within stretch between s' t' inside inner →
      Meet stretch after (f v s') (f' v t')) :
    Meet stretch after ((m >>= f) s) ((m' >>= f') t) := by
  show Meet stretch after (EStateM.bind m f s) (EStateM.bind m' f' t)
  unfold EStateM.bind
  revert hm
  generalize m s = r, m' t = r'
  rintro (within | ⟨left, right⟩ | hfinal)
  · exact hf _ _ _ _ _ within
  · exact .error left right
  · exact .final hfinal

/-- After a failed attempt both readers are back where it began. -/
theorem attempt {inside : List Token} {inner : List Location}
    (h : Within stretch .zero s t inside inner) (hm : Meet stretch .zero (m s) (m' t)) :
    Meet stretch .zero (m.attempt s) (m'.attempt t) := by
  obtain rfl := List.length_eq_zero_iff.mp h.length
  unfold Parse.attempt
  revert hm
  generalize m s = r, m' t = r'
  rintro (within | ⟨left, right⟩ | hfinal)
  · exact .ok within
  · dsimp only
    -- the failure is recovered from or passed on, the same for both
    split
    · rw [left.rewind_eq h.brackets h.stop h.forgetful,
        right.rewind_eq h.brackets' h.stop' h.forgetful']
      exact .ok h
    · exact .error left right
  · dsimp only
    rw [if_neg (by simp [hfinal])]
    exact .final hfinal

/-- Both repeat a turn. -/
theorem iterate {turn turn' : α → Parse (Turn α β)} {inside : List Token} {inner : List Location}
    (hturn : ∀ a s t inside inner, Within stretch level s t inside inner →
      Meet stretch level (turn a s) (turn' a t)) (a : α)
    (h : Within stretch level s t inside inner) :
    Meet stretch level (Parse.iterate turn a s) (Parse.iterate turn' a t) := by
  -- induction on what remains of the input, which every turn but the last makes shorter
  induction hn : s.rest.length using Nat.strongRecOn generalizing a s t inside inner with
  | _ n ih =>
    subst hn
    have hm := hturn a s t inside inner h
    unfold Parse.iterate
    revert hm
    generalize turn a s = r, turn' a t = r'
    rintro (@⟨next, s', t', inside', inner', within⟩ | ⟨left, right⟩ | hfinal)
    · cases next with
      | done b => exact .ok { within with }
      | again a' =>
        have hlt_iff : t'.rest.length < t.rest.length ↔ s'.rest.length < s.rest.length := by
          rw [within.rest, within.rest', h.rest, h.rest']
          simp only [List.length_append]
          omega
        dsimp only
        by_cases hlt : s'.rest.length < s.rest.length
        · rw [if_pos hlt, if_pos (hlt_iff.mpr hlt)]
          exact ih _ hlt a' within rfl
        · rw [if_neg hlt, if_neg fun hlt' => hlt (hlt_iff.mp hlt'), within.unexpected_eq]
          exact within.fail _
    · exact .error left right
    · exact .final hfinal

end Meet

/-! ## Every step -/

/-- Wherever two readers stand before the same tokens, the steps do the same. -/
def MeetsWithin (m m' : Parse α) : Prop :=
  ∀ ⦃stretch : Stretch⦄ ⦃s t : State⦄ ⦃inside : List Token⦄ ⦃inner : List Location⦄,
    Within stretch .zero s t inside inner → Meet stretch .zero (m s) (m' t)

/-- The same tokens where all brackets that are open count as brackets around. -/
def Stretch.inward (stretch : Stretch) (level : Level) (s t : State) : Stretch :=
  { stretch with
    around := s.brackets
    around' := t.brackets
    depth := level.total + stretch.depth
    depth_pos := Nat.lt_of_lt_of_le stretch.depth_pos (Nat.le_add_left _ _) }

section Lift

variable {inside inside' : List Token} {inner inner' : List Location}

/-- What a rule has opened so far is around what it reads next. -/
theorem Within.inward (h : Within stretch level s t inside inner) :
    Within (stretch.inward level s t) .zero s t inside [] :=
  { h with
    balanced := by
      rw [h.balanced]
      simp [Stretch.inward]
    brackets := rfl
    brackets' := rfl
    length := rfl }

/-- What was read there is within the brackets of the rule again. -/
theorem Within.outward (h : Within stretch level s t inside inner)
    (h' : Within (stretch.inward level s t) .zero s' t' inside' inner') :
    Within stretch level s' t' inside' inner := by
  obtain rfl := List.length_eq_zero_iff.mp h'.length
  have hbalanced : excess inside' = level.total + stretch.depth := by
    have := h'.balanced
    simpa [Stretch.inward] using this
  exact
    { h' with
      balanced := hbalanced
      brackets := h'.brackets.trans h.brackets
      brackets' := h'.brackets'.trans h.brackets'
      length := h.length }

/-- Steps that leave the brackets as they are do so within brackets of their own, too. -/
theorem MeetsWithin.lift {m m' : Parse α} (hm : MeetsWithin m m')
    (h : Within stretch level s t inside inner) : Meet stretch level (m s) (m' t) := by
  have hmeet := hm h.inward
  revert hmeet
  generalize m s = r, m' t = r'
  rintro (within | ⟨left, right⟩ | hfinal)
  · exact .ok (h.outward within)
  · -- the brackets around are among those that were open
    refine .error { left with outer := ?_ } { right with outer := ?_ }
    · exact (List.suffix_append inner _).trans (h.brackets ▸ left.outer)
    · exact (List.suffix_append inner _).trans (h.brackets' ▸ right.outer)
  · exact .final hfinal

end Lift

/-- Steps that are paired do the same, if reading expressions does. -/
theorem Paired.meets {expr : Precedence → Parse Expr} {expr' : Nat → Precedence → Parse Expr}
    {room : Nat} (hexpr : ∀ p, MeetsWithin (expr p) (expr' room p)) {place : Place} {m : Parse α}
    {run : Nat → Parse α} (h : Paired expr expr' place before after m run) :
    ∀ {stretch : Stretch} {s t : State} {inside : List Token} {inner : List Location},
      place.Holds s → Within stretch before s t inside inner →
        Meet stretch after (m s) (run room t) := by
  -- induction on the pairing; no step can be at the end of the input, so that part never applies
  induction h with
  | pure a => exact fun _ hwithin => .ok hwithin
  | bind first then_ ih ih' =>
    exact fun hplace hwithin => .bind (ih hplace hwithin) fun a _ _ _ _ hwithin' =>
      ih' a trivial hwithin'
  | @peek β place before after f next then_ ends ih =>
    intro stretch s t inside inner hplace hwithin
    show Meet stretch after (f s.current s) (next room t.current t)
    rw [hwithin.current_eq]
    exact ih s.current (place.allows_of_holds hplace) rfl hwithin
  | advance plain =>
    exact fun hplace hwithin => hwithin.advance rfl (by
      rw [hplace, balance_of_isPlain plain, Int.sub_zero])
  | openBracket opens => exact fun hplace hwithin => hwithin.openBracket (hplace ▸ opens)
  | openInner opens =>
    exact fun hplace hwithin => hwithin.advance rfl (by
      -- the second bracket of a pair is not on the stack, but it has to be closed
      rw [hplace, (balance_of_closer? opens).1, Level.total_openedInner]
      omega)
  | expect plain notEnd =>
    exact fun _ hwithin => hwithin.expect rfl (by rw [balance_of_isPlain plain, Int.sub_zero])
  | closeInner closes =>
    exact fun _ hwithin => hwithin.expect rfl (by
      rw [closes, Level.total_openedInner]
      omega)
  | closeBracket closes => exact fun _ hwithin => hwithin.closeBracket closes
  | unexpected =>
    intro stretch s t inside inner _ hwithin
    show Meet stretch _ (.error s.unexpected s) (.error t.unexpected t)
    rw [hwithin.unexpected_eq]
    exact hwithin.fail _
  | missing kind =>
    intro stretch s t inside inner _ hwithin
    show Meet stretch _ (.error (s.missing kind) s) (.error (t.missing kind) t)
    rw [hwithin.missing_eq]
    exact hwithin.fail _
  | throw notEnd aboutToken => exact fun _ hwithin => hwithin.fail _
  | @ofResult _ _ _ _ _ result f _ notEnd aboutToken then_ ih =>
    intro stretch s t inside inner hplace hwithin
    cases result with
    | error e => exact hwithin.fail e
    | ok a => exact ih a hplace hwithin
  | expr p => exact fun _ hwithin => (hexpr p).lift hwithin
  | attempt p => exact fun _ hwithin => .attempt hwithin (hexpr p hwithin)
  | attemptAfter plain p =>
    intro stretch s t inside inner hplace hwithin
    have hadvance : Meet stretch .zero (Parse.advance s) (Parse.advance t) :=
      hwithin.advance rfl (by rw [hplace, balance_of_isPlain plain, Int.sub_zero])
    -- the token before the attempt is taken back with it
    exact .attempt hwithin (.bind hadvance fun _ _ _ _ _ hwithin' => hexpr p hwithin')
  | iterate each a ih =>
    exact fun _ hwithin => .iterate (fun a _ _ _ _ hwithin' => ih a trivial hwithin') a hwithin
  | @atFinalEnd β before after f next onEnd otherwise ends ih ih' =>
    intro stretch s t inside inner _ hwithin
    show Meet stretch after ((Parse.atFinalEnd >>= f) s) ((Parse.atFinalEnd >>= next room) t)
    rw [atFinalEnd_bind, atFinalEnd_bind, hwithin.current_eq,
      beq_false_of_ne hwithin.ne_endOfInput, Bool.false_and, Bool.false_and]
    -- neither reader can find the input at an end
    exact ih' (fun hend => absurd hend hwithin.ne_endOfInput) hwithin
  | symbolOperand p strict g =>
    intro stretch s t inside inner _ hwithin
    show Meet stretch .zero
      ((_ >>= fun operand => symbolOnly strict s.current operand (g operand)) s)
      ((_ >>= fun operand => symbolOnly strict t.current operand (g operand)) t)
    rw [hwithin.current_eq]
    refine .bind (hexpr p hwithin) fun operand s' t' inside' inner' hwithin' => ?_
    unfold symbolOnly
    split
    · exact hwithin'.fail _
    · exact .ok hwithin'

/-- An expression that is read within the tokens in common is the same for both readers, and they go
    on in the same place after it. -/
theorem meets_expression {room room' : Nat} (hle : room ≤ room') (p : Precedence) :
    MeetsWithin (Forgetful.expression .standard room p)
      (Forgetful.expression .standard room' p) := by
  -- induction on the room, which is less for the parts of an expression
  induction room generalizing room' p with
  | zero => exact fun _ _ _ _ _ _ => .final rfl
  | succ room ih =>
    obtain ⟨room', rfl⟩ : ∃ n, room' = n + 1 := ⟨room' - 1, by omega⟩
    intro stretch s t inside inner h
    have hplace : Place.anywhere.Holds s := trivial
    have hchain : Paired (Forgetful.expression .standard room) (Forgetful.expression .standard)
        .anywhere .zero .zero (chain .standard (Forgetful.expression .standard room) p)
        (fun room' => chain .standard (Forgetful.expression .standard room') p) :=
      paired_chain p
    exact hchain.meets (fun q => ih (by omega) q) hplace h

/-! ## Sequences -/

section Sequences

variable {expr expr' : Precedence → Parse Expr} (hexpr : ∀ p, MeetsWithin (expr p) (expr' p))
include hexpr

/-- One more expression of an element. -/
theorem meets_elementTurn (closer : TokenKind) (factors : List Expr) :
    MeetsWithin (elementTurn expr closer factors) (elementTurn expr' closer factors) := by
  intro stretch s t inside inner h
  unfold elementTurn
  rw [peek_bind, peek_bind, h.current_eq]
  split
  · exact .ok h
  split
  · exact absurd ‹_› h.ne_endOfInput
  split
  · exact h.fail _
  · exact .bind (hexpr 0 h) fun e _ _ _ _ h' => .ok h'

/-- One element. -/
theorem meets_element (closer : TokenKind) :
    MeetsWithin (element expr closer) (element expr' closer) := by
  intro stretch s t inside inner h
  unfold element
  exact .bind (hexpr 0 h) fun e _ _ _ _ h' =>
    .iterate (fun factors _ _ _ _ h'' => meets_elementTurn hexpr closer factors h'') [e] h'

/-- One more element of a sequence. -/
theorem meets_sequenceTurn (closer : TokenKind) (items : List Expr) :
    MeetsWithin (sequenceTurn expr closer items) (sequenceTurn expr' closer items) := by
  intro stretch s t inside inner h
  have hcomma : ∀ {s t inside inner}, Within stretch .zero s t inside inner →
      s.current.kind = .comma →
        Meet stretch .zero (Parse.advance s) (Parse.advance t) :=
    fun h hkind => h.advance rfl (by rw [hkind]; rfl)
  unfold sequenceTurn
  rw [peek_bind, peek_bind, h.current_eq]
  split
  · -- a comma right away stands for an element left out
    rename_i hkind
    exact .bind (hcomma h hkind) fun _ _ _ _ _ h' => .ok h'
  split
  · exact .ok h
  split
  · exact absurd ‹_› h.ne_endOfInput
  · refine .bind (meets_element hexpr closer h) fun es s' t' inside' inner' h' => ?_
    rw [peek_bind, peek_bind, h'.current_eq]
    split
    · -- a comma behind the element is passed over with it
      rename_i hkind
      exact .bind (hcomma h' hkind) fun _ _ _ _ _ h'' => .ok h''
    · exact .ok h'

/-- A sequence does not show what comes after the bracket that closes it. -/
theorem meets_sequence (closer : TokenKind) :
    MeetsWithin (sequence expr closer) (sequence expr' closer) := by
  intro stretch s t inside inner h
  exact .iterate (fun items _ _ _ _ h' => meets_sequenceTurn hexpr closer items h') [] h

end Sequences

/-! ## Up to the closing bracket -/

/-- Nested tokens are closed by the first closing bracket that comes at their level. -/
theorem eq_singleton_of_suffix {inside rest : List Token} {closing : Token}
    (nested : Nested inside) (hclosing : closing.kind.balance = 1)
    (suffix : rest <:+ inside ++ [closing])
    (hexcess : excess rest = 1) (hcloses : ∀ t ∈ rest.head?, t.kind.balance = 1) :
    rest = [closing] := by
  obtain ⟨passed, hpassed⟩ := suffix
  rcases List.eq_nil_or_concat rest with rfl | ⟨more, last, rfl⟩
  · cases hexcess
  · have happend : (passed ++ more) ++ [last] = inside ++ [closing] := by
      rw [← hpassed]
      simp
    obtain ⟨hinside, hlast⟩ := List.append_inj' happend rfl
    obtain rfl : last = closing := List.singleton_inj.mp hlast
    cases more with
    | nil => rfl
    | cons first more =>
      -- a bracket that closes here would close one from before
      exfalso
      have hfirst : first.kind.balance = 1 := hcloses first rfl
      have hnever := nested.neverCloses (passed ++ [first]) ⟨more, by rw [← hinside]; simp⟩
      have hzero := nested.excess_eq_zero
      rw [← hinside] at hzero
      rw [List.concat_eq_append] at hexcess
      simp only [List.cons_append, excess_append, excess_cons, excess_nil] at hnever hzero hexcess
      omega

/-- A state is what its fields are. -/
theorem State.eq_of_fields {rest : List Token} {stop : Location} {brackets : List Location}
    {failures : List (Occasion × SyntaxError)} (hrest : s.rest = rest) (hstop : s.stop = stop)
    (hbrackets : s.brackets = brackets) (hfailures : s.failures = failures) :
    s = ⟨rest, stop, brackets, failures⟩ := by
  subst hrest hstop hbrackets hfailures
  rfl

section Bracketed

variable {inside : List Token} (rest rest' : List Token) {opening closing : Token}

/-- What is between two brackets, the closing one included, with the brackets that each reader has
    around. -/
def Stretch.bracketed (inside : List Token) (closing : Token) (rest rest' : List Token)
    (opening : Location) (s t : State)
    (endFree : ∀ t ∈ inside ++ [closing], t.kind ≠ .endOfInput) : Stretch where
  tokens := inside ++ [closing]
  after := rest
  after' := rest'
  stop := s.stop
  stop' := t.stop
  around := opening :: s.brackets
  around' := opening :: t.brackets
  depth := 1
  depth_pos := Nat.one_pos
  endFree := endFree

/-- Behind an opening token both readers are within its bracket. -/
theorem within_bracketed (opening : Token) (nested : Nested inside)
    (hclosing : closing.kind.balance = 1)
    (endFree : ∀ t ∈ inside ++ [closing], t.kind ≠ .endOfInput) (hs : s.failures = [])
    (ht : t.failures = []) :
    Within (.bracketed inside closing rest rest' opening.loc s t endFree) .zero
      ((s.within opening.loc).before (inside ++ closing :: rest))
      ((t.within opening.loc).before (inside ++ closing :: rest')) (inside ++ [closing]) [] where
  suffix := List.suffix_refl _
  rest := (List.append_assoc inside [closing] rest).symm
  rest' := (List.append_assoc inside [closing] rest').symm
  balanced := by
    rw [excess_append, nested.excess_eq_zero, excess_cons, hclosing]
    rfl
  brackets := rfl
  brackets' := rfl
  length := rfl
  stop := rfl
  stop' := rfl
  forgetful := hs
  forgetful' := ht

/-- What is read between brackets up to the closing one is read so in any more room, and whatever
    comes after that bracket. -/
theorem ok_of_nested {m m' : Parse α} (hmeets : MeetsWithin m m') (nested : Nested inside)
    (endFree : ∀ t ∈ inside, t.kind ≠ .endOfInput)
    (hclosing : closing.kind.balance = 1) (hs : s.failures = []) (ht : t.failures = []) {v : α}
    (h : m ((s.within opening.loc).before (inside ++ closing :: rest)) = .ok v s')
    (hcloses : s'.current.kind.balance = 1) :
    s' = (s.within opening.loc).before (closing :: rest) ∧
      m' ((t.within opening.loc).before (inside ++ closing :: rest')) =
        .ok v ((t.within opening.loc).before (closing :: rest')) := by
  have hend : ∀ u ∈ inside ++ [closing], u.kind ≠ .endOfInput := by
    refine List.forall_mem_append.mpr ⟨endFree, List.forall_mem_singleton.mpr ?_⟩
    intro heq
    rw [heq] at hclosing
    cases hclosing
  have hmeet := hmeets (within_bracketed rest rest' opening nested hclosing hend hs ht)
  rw [h] at hmeet
  revert hmeet
  generalize m' _ = r
  rintro (@⟨v, s', t', inside', inner', within⟩ | _ | _)
  obtain rfl := List.length_eq_zero_iff.mp within.length
  -- the readers have stopped at the only token that closes a bracket from before
  have hinside : inside' = [closing] := by
    refine eq_singleton_of_suffix nested hclosing within.suffix within.balanced fun u hu => ?_
    obtain ⟨first, more, rfl⟩ := within.exists_cons
    cases hu
    rwa [State.current, within.rest] at hcloses
  subst hinside
  refine ⟨State.eq_of_fields within.rest within.stop within.brackets
    (within.forgetful.trans hs.symm), ?_⟩
  rw [State.eq_of_fields within.rest' within.stop' within.brackets'
    (within.forgetful'.trans ht.symm)]
  rfl

end Bracketed

end Symbolic.Reader
