import Symbolic.Proofs.Lockstep.EndOfInput

/-!
# A reader keeps track of brackets

The tokens that a reader has passed over leave open just the brackets that its rules have opened,
and it keeps track of these, but for second brackets of parts. So whatever bracket it blames at the
end of the input is left open by all of the tokens. This holds wherever the reader stands, after
going back as well, and of the failures that it remembers. What it accepts is nested.

## Key results

- `Tracks`, `Standing`: the opening tokens around a reader and the brackets that it keeps track of
- `Proceeds`: a success leaves the brackets in order, a failure blames none that is closed
- `Paired.proceeds`, `proceeds_expression`: every rule and every expression proceeds so
- `nesting_of_readTokens`: what is accepted is nested, and a bracket that is blamed is unclosed
-/

namespace Symbolic.Reader

open Parse

variable {expr : Precedence → Parse Expr} {expr' : Nat → Precedence → Parse Expr}
  {α β : Type} {tokens : List Token} {before between after level : Level} {s s' : State}
  {e : SyntaxError} {kind closer : TokenKind}

/-! ## Opening tokens and brackets -/

/-- What is open around a step: opening tokens, and the brackets that the reader keeps track of. -/
structure Enclosure where
  openings : List Token
  brackets : List Location
  covered : ∀ loc ∈ brackets, ∃ t ∈ openings, t.loc = loc

variable {around : Enclosure}

/-- The opening tokens and the brackets of a reader that has opened the brackets of the level. -/
inductive Tracks (around : Enclosure) : Level → List Token → List Location → Prop where
  | zero : Tracks around .zero around.openings around.brackets
  | opened {level : Level} {openings : List Token} {brackets : List Location} {t : Token}
      {closer : TokenKind} (closes : t.kind.closer? = some closer)
      (within : Tracks around level openings brackets) :
      Tracks around (level.opened closer) (t :: openings) (t.loc :: brackets)
  | openedInner {level : Level} {openings : List Token} {brackets : List Location} {t : Token}
      {closer : TokenKind} (closes : t.kind.closer? = some closer)
      (within : Tracks around level openings brackets) :
      Tracks around (level.openedInner closer) (t :: openings) brackets

namespace Tracks

variable {openings : List Token} {brackets : List Location}

/-- An opening token stands behind each bracket that is kept track of. -/
theorem covered (h : Tracks around level openings brackets) :
    ∀ loc ∈ brackets, ∃ t ∈ openings, t.loc = loc := by
  -- induction on what has been opened
  induction h with
  | zero => exact around.covered
  | @opened level openings brackets t closer closes within ih =>
    intro loc hmem
    rcases List.mem_cons.mp hmem with rfl | hmem
    · exact ⟨t, List.mem_cons_self, rfl⟩
    · obtain ⟨t', ht', hloc⟩ := ih loc hmem
      exact ⟨t', List.mem_cons_of_mem _ ht', hloc⟩
  | openedInner closes within ih =>
    intro loc hmem
    obtain ⟨t', ht', hloc⟩ := ih loc hmem
    exact ⟨t', List.mem_cons_of_mem _ ht', hloc⟩

/-- The brackets around stay on the stack. -/
theorem outer (h : Tracks around level openings brackets) : around.brackets <:+ brackets := by
  induction h with
  | zero => exact List.suffix_refl _
  | opened closes within ih => exact ih.trans (List.suffix_cons _ _)
  | openedInner closes within ih => exact ih

/-- Where nothing is open, only the brackets around are on the stack. -/
theorem brackets_eq (h : Tracks around .zero openings brackets) : brackets = around.brackets := by
  cases h
  rfl

/-- Where nothing is open, only the opening tokens around are open. -/
theorem openings_eq (h : Tracks around .zero openings brackets) :
    openings = around.openings := by
  cases h
  rfl

/-- The enclosure of a step for which all that is open is around it. -/
def enclosure (h : Tracks around level openings brackets) : Enclosure :=
  ⟨openings, brackets, h.covered⟩

end Tracks

/-! ## Where a reader stands -/

/-- If the error blames a bracket, none of the tokens closes it. -/
def Blames (tokens : List Token) (e : SyntaxError) : Prop :=
  ∀ loc, e = .unclosedBracket loc → Unclosed tokens loc

/-- An error about a token blames no bracket. -/
theorem blames_of_isAboutToken (h : e.isAboutToken = true) : Blames tokens e := by
  rintro loc rfl
  cases h

/-- All errors on record blame none but unclosed brackets. -/
def BlamesAll (tokens : List Token) (failures : List (Occasion × SyntaxError)) : Prop :=
  ∀ failure ∈ failures, Blames tokens failure.2

/-- The reader has passed over the first tokens, which leave open what is around it and the
    brackets of the level. -/
structure Standing (tokens : List Token) (around : Enclosure) (level : Level) (s : State) :
    Prop where
  passed : ∃ passed openings, tokens = passed ++ s.rest ∧ Opened openings passed ∧
    Tracks around level openings s.brackets
  known : BlamesAll tokens s.failures

/-- How a step comes out: after a success the brackets of the level are open within those around;
    an error leaves those around as they are. -/
inductive Proceeds (tokens : List Token) (around : Enclosure) (level : Level) :
    EStateM.Result SyntaxError State α → Prop where
  | ok {a : α} {s : State} (standing : Standing tokens around level s) :
      Proceeds tokens around level (.ok a s)
  | error {e : SyntaxError} {s : State} (blames : Blames tokens e)
      (outer : around.brackets <:+ s.brackets) (known : BlamesAll tokens s.failures) :
      Proceeds tokens around level (.error e s)

namespace Standing

/-- The brackets around stay on the stack. -/
theorem outer (h : Standing tokens around level s) : around.brackets <:+ s.brackets := by
  obtain ⟨_, _, _, _, htracks⟩ := h.passed
  exact htracks.outer

/-- An error of a step that stays where it is. -/
theorem error (h : Standing tokens around before s) (he : Blames tokens e) :
    Proceeds (α := α) tokens around after (.error e s) :=
  .error he h.outer h.known

/-- Passing over a token, which may open a bracket or close one. -/
theorem tail (h : Standing tokens around before s) (hkind : s.current.kind ≠ .endOfInput)
    {brackets : List Location}
    (hopened : ∀ passed openings, Opened openings passed →
      Tracks around before openings s.brackets → ∃ openings', Opened openings'
        (passed ++ [s.current]) ∧ Tracks around after openings' brackets) :
    Standing tokens around after { s with rest := s.rest.tail, brackets := brackets } := by
  obtain ⟨passed, openings, htokens, hpassed, htracks⟩ := h.passed
  obtain ⟨openings', hpassed', htracks'⟩ := hopened passed openings hpassed htracks
  refine ⟨⟨passed ++ [s.current], openings', ?_, hpassed', htracks'⟩, h.known⟩
  cases hrest : s.rest with
  | nil => exact absurd (current_of_nil hrest) hkind
  | cons t rest =>
    rw [htokens, hrest, State.current, hrest, List.append_assoc]
    rfl

/-- A token that neither opens nor closes anything is passed over. -/
theorem advance (h : Standing tokens around level s) (hplain : s.current.kind.isPlain = true) :
    Standing tokens around level { s with rest := s.rest.tail } := by
  apply h.tail (notEnd_of_isPlain hplain)
  intro passed openings hpassed htracks
  exact ⟨openings, hpassed.pass (balance_of_isPlain hplain), htracks⟩

/-- A bracket is opened: its closing token is waited for. -/
theorem openBracket (h : Standing tokens around level s)
    (hopens : s.current.kind.closer? = some closer) :
    Standing tokens around (level.opened closer)
      { s with rest := s.rest.tail, brackets := s.current.loc :: s.brackets } := by
  have hbalance := (balance_of_closer? hopens).1
  apply h.tail (ne_endOfInput_of_balance hbalance (by decide))
  intro passed openings hpassed htracks
  exact ⟨s.current :: openings, hpassed.push (Option.isSome_of_eq_some hopens),
    .opened hopens htracks⟩

/-- The second bracket of a pair is opened, which the stack does not keep track of. -/
theorem openInner (h : Standing tokens around level s)
    (hopens : s.current.kind.closer? = some closer) :
    Standing tokens around (level.openedInner closer) { s with rest := s.rest.tail } := by
  have hbalance := (balance_of_closer? hopens).1
  apply h.tail (ne_endOfInput_of_balance hbalance (by decide))
  intro passed openings hpassed htracks
  exact ⟨s.current :: openings, hpassed.push (Option.isSome_of_eq_some hopens),
    .openedInner hopens htracks⟩

/-- A bracket is closed. -/
theorem closeBracket (h : Standing tokens around (level.opened s.current.kind) s)
    (hcloses : s.current.kind.balance = 1) :
    Standing tokens around level
      { s with rest := s.rest.tail, brackets := s.brackets.tail } := by
  apply h.tail (ne_endOfInput_of_balance hcloses (by decide))
  intro passed openings hpassed htracks
  generalize s.brackets = brackets at htracks
  cases htracks with
  | opened closes within => exact ⟨_, hpassed.pop closes, within⟩

/-- The second bracket of a pair is closed. -/
theorem closeInner (h : Standing tokens around (level.openedInner s.current.kind) s)
    (hcloses : s.current.kind.balance = 1) :
    Standing tokens around level { s with rest := s.rest.tail } := by
  apply h.tail (ne_endOfInput_of_balance hcloses (by decide))
  intro passed openings hpassed htracks
  cases htracks with
  | openedInner closes within => exact ⟨_, hpassed.pop closes, within⟩

/-- The end of the input is reached once nothing remains. -/
theorem rest_eq_nil (h : Standing tokens around level s)
    (endFree : ∀ t ∈ tokens, t.kind ≠ .endOfInput) (hend : s.current.kind = .endOfInput) :
    s.rest = [] := by
  obtain ⟨passed, _, htokens, _⟩ := h.passed
  cases hrest : s.rest with
  | nil => rfl
  | cons t rest =>
    have hmem : t ∈ tokens := by
      rw [htokens, hrest]
      simp
    rw [State.current, hrest] at hend
    exact absurd hend (endFree t hmem)

/-- At the end of the input the innermost bracket is blamed, which no token closes. -/
theorem blames_faultAt (h : Standing tokens around level s)
    (endFree : ∀ t ∈ tokens, t.kind ≠ .endOfInput) (he : e.isAboutToken = true) :
    Blames tokens (s.faultAt e) := by
  unfold State.faultAt
  split
  · rename_i hend
    cases hbrackets : s.brackets with
    | nil => exact blames_of_isAboutToken he
    | cons opening brackets =>
      intro loc heq
      cases heq
      -- at the end of the input the last bracket that is open is blamed
      obtain ⟨passed, openings, htokens, hpassed, htracks⟩ := h.passed
      rw [h.rest_eq_nil endFree hend, List.append_nil] at htokens
      obtain ⟨t, ht, rfl⟩ := htracks.covered opening (by rw [hbrackets]; exact List.mem_cons_self)
      rw [htokens]
      exact hpassed.unclosed ht
  · exact blames_of_isAboutToken he

end Standing

/-! ## Steps put together -/

namespace Proceeds

/-- A step goes on where the one before it ended. -/
theorem bind {m : Parse α} {f : α → Parse β} (hm : Proceeds tokens around between (m s))
    (hf : ∀ a s', Standing tokens around between s' → Proceeds tokens around after (f a s')) :
    Proceeds tokens around after ((m >>= f) s) := by
  show Proceeds tokens around after (EStateM.bind m f s)
  unfold EStateM.bind
  revert hm
  generalize m s = r
  rintro (⟨standing⟩ | ⟨blames, outer, known⟩)
  · exact hf _ _ standing
  · exact .error blames outer known

/-- A step that leaves the brackets as they are does so within others, too. -/
theorem lift {m : Parse α} (h : Standing tokens around level s)
    (hm : ∀ around', Standing tokens around' .zero s → Proceeds tokens around' .zero (m s)) :
    Proceeds tokens around level (m s) := by
  obtain ⟨passed, openings, htokens, hpassed, htracks⟩ := h.passed
  -- to the step all that is open is around it
  have hresult := hm htracks.enclosure ⟨⟨passed, openings, htokens, hpassed, .zero⟩, h.known⟩
  revert hresult
  generalize m s = r
  rintro (@⟨a, s', ⟨passed', openings', htokens', hpassed', htracks'⟩, known⟩ |
    ⟨blames, outer, known⟩)
  · refine .ok ⟨⟨passed', openings', htokens', hpassed', ?_⟩, known⟩
    generalize s'.brackets = brackets' at htracks'
    cases htracks' with
    | zero => exact htracks
  · exact .error blames (htracks.outer.trans outer) known

/-- A token that is expected is passed over, or its absence is about a token. -/
theorem expect (h : Standing tokens around before s)
    (endFree : ∀ t ∈ tokens, t.kind ≠ .endOfInput)
    (hpass : s.current.kind = kind →
      Standing tokens around after { s with rest := s.rest.tail }) :
    Proceeds tokens around after (expect kind s) := by
  rw [expect_eq]
  split
  · rename_i hkind
    exact .ok (hpass hkind)
  · exact h.error (h.blames_faultAt endFree rfl)

/-- An attempt that fails leaves the reader where it was. -/
theorem attempt {m : Parse α} (h : Standing tokens around .zero s)
    (hm : Proceeds tokens around .zero (m s)) : Proceeds tokens around .zero (m.attempt s) := by
  unfold Parse.attempt
  revert hm
  generalize m s = r
  rintro (⟨standing⟩ | @⟨e, s', blames, outer, known⟩)
  · exact .ok standing
  · dsimp only
    split
    · -- the brackets opened since the start are just those that going back drops
      obtain ⟨passed, openings, htokens, hpassed, htracks⟩ := h.passed
      refine .ok ⟨⟨passed, openings, htokens, hpassed, ?_⟩, known⟩
      have hbrackets : (s'.rewind s.mark).brackets = s.brackets :=
        (List.suffix_iff_eq_drop.mp (htracks.brackets_eq ▸ outer)).symm
      rw [hbrackets]
      exact htracks
    · exact .error blames outer known

/-- Turns that each leave open what was open before do so together. -/
theorem iterate {turn : α → Parse (Turn α β)} (endFree : ∀ t ∈ tokens, t.kind ≠ .endOfInput)
    (hturn : ∀ a s, Standing tokens around level s → Proceeds tokens around level (turn a s))
    (a : α) (h : Standing tokens around level s) :
    Proceeds tokens around level (iterate turn a s) := by
  -- induction on what remains of the input, which every turn but the last makes shorter
  induction hn : s.rest.length using Nat.strongRecOn generalizing a s with
  | _ n ih =>
    subst hn
    have hresult := hturn a s h
    unfold Parse.iterate
    revert hresult
    generalize turn a s = r
    rintro (@⟨outcome, s', standing⟩ | ⟨blames, outer, known⟩)
    · cases outcome with
      | done b => exact .ok standing
      | again a' =>
        dsimp only
        split
        · rename_i hlt
          exact ih _ hlt a' standing rfl
        · exact standing.error (standing.blames_faultAt endFree rfl)
    · exact .error blames outer known

end Proceeds

/-! ## Every step -/

/-- Every step of the reader closes what it opens, and blames an unclosed bracket on an opening
    token that is open. -/
theorem Paired.proceeds {place : Place} {m : Parse α} {run : Nat → Parse α}
    (endFree : ∀ t ∈ tokens, t.kind ≠ .endOfInput)
    (hexpr : ∀ p around s, Standing tokens around .zero s →
      Proceeds tokens around .zero (expr p s))
    (h : Paired expr expr' place before after m run) : ∀ {s : State}, place.Holds s →
      Standing tokens around before s → Proceeds tokens around after (m s) := by
  -- an operand is read within all that its rule has opened so far
  have hexpr : ∀ p {level s}, Standing tokens around level s →
      Proceeds tokens around level (expr p s) := by
    intro p level s hs
    apply Proceeds.lift hs
    intro around'
    exact hexpr p around' s
  -- induction on how the step is put together, with one case for each of its rules
  induction h with
  | pure a => exact fun _ hs => .ok hs
  | bind first then_ ih ih' =>
    exact fun hplace hs => .bind (ih hplace hs) fun a s₁ hs₁ => ih' a trivial hs₁
  | @peek β place before after f next then_ ends ih =>
    intro s hplace hs
    exact ih s.current (place.allows_of_holds hplace) rfl hs
  | advance plain => exact fun hplace hs => .ok (hs.advance (hplace ▸ plain))
  | openBracket opens => exact fun hplace hs => .ok (hs.openBracket (hplace ▸ opens))
  | openInner opens => exact fun hplace hs => .ok (hs.openInner (hplace ▸ opens))
  | expect plain notEnd =>
    exact fun _ hs => .expect hs endFree fun hkind => hs.advance (hkind ▸ plain)
  | closeInner closes =>
    intro s _ hs
    refine .expect hs endFree fun hkind => ?_
    subst hkind
    exact hs.closeInner closes
  | @closeBracket place level kind closes =>
    -- the top of the stack is the bracket that this rule has opened
    intro s _ hs
    rw [closeBracket_eq]
    split
    · rename_i hkind
      subst hkind
      exact .ok (hs.closeBracket closes)
    · exact hs.error (hs.blames_faultAt endFree rfl)
  | unexpected => exact fun _ hs => hs.error (hs.blames_faultAt endFree rfl)
  | missing kind => exact fun _ hs => hs.error (hs.blames_faultAt endFree rfl)
  | throw notEnd aboutToken => exact fun _ hs => hs.error (blames_of_isAboutToken aboutToken)
  | @ofResult _ _ _ _ _ result f _ notEnd aboutToken then_ ih =>
    intro s hplace hs
    cases result with
    | error e => exact hs.error (blames_of_isAboutToken (aboutToken e rfl))
    | ok a => exact ih a hplace hs
  | expr p => exact fun _ hs => hexpr p hs
  | attempt p => exact fun _ hs => .attempt hs (hexpr p hs)
  | attemptAfter plain p =>
    intro s hplace hs
    have hadvance : Proceeds tokens around .zero (Parse.advance s) :=
      .ok (hs.advance (hplace ▸ plain))
    exact .attempt hs (.bind hadvance fun _ s₁ hs₁ => hexpr p hs₁)
  | iterate each a ih => exact fun _ hs => .iterate endFree (fun a s hs => ih a trivial hs) a hs
  | atFinalEnd onEnd otherwise ends ih ih' =>
    intro s _ hs
    rw [atFinalEnd_bind]
    -- both branches of the question keep the nesting
    cases hfinal : (s.current.kind == .endOfInput && s.brackets.isEmpty) with
    | true => exact ih trivial hs
    | false => exact ih' (notFinal_of_eq_false hfinal) hs
  | symbolOperand p strict g =>
    intro s _ hs
    rw [peek_bind]
    refine .bind (hexpr p hs) fun operand s₁ hs₁ => ?_
    unfold symbolOnly
    split
    · -- the refusal blames the token that the operand started with
      exact hs₁.error (blames_of_isAboutToken rfl)
    · exact .ok hs₁

/-! ## Expressions and inputs -/

/-- A failure that is remembered blames what it blamed before. -/
theorem Proceeds.remember {p : Precedence} {step : Parse Expr}
    (h : Standing tokens around .zero s) (hstep : Proceeds tokens around .zero (step s)) :
    Proceeds tokens around .zero (remember p step s) := by
  unfold Parse.remember
  split
  · -- what is remembered blames no closed bracket, either
    rename_i hlookup
    exact h.error (h.known _ (mem_of_lookup hlookup))
  · revert hstep
    generalize step s = r
    rintro (⟨standing⟩ | @⟨e, s', blames, outer, known⟩)
    · exact .ok standing
    · dsimp only
      split
      · exact .error blames outer (List.forall_mem_cons.mpr ⟨blames, known⟩)
      · exact .error blames outer known

/-- An expression closes what it opens. -/
theorem proceeds_expression (endFree : ∀ t ∈ tokens, t.kind ≠ .endOfInput) (room : Nat)
    (p : Precedence) (h : Standing tokens around .zero s) :
    Proceeds tokens around .zero (expression .standard room p s) := by
  -- induction on the room: the operands of an expression are read in less of it
  induction room generalizing p around s with
  | zero => exact h.error fun loc heq => nomatch heq
  | succ room ih =>
    exact .remember h ((paired_chain_self room p).proceeds endFree
      (fun q around' s' hs => ih q hs) trivial h)

/-- A whole input closes what it opens. -/
theorem proceeds_program (endFree : ∀ t ∈ tokens, t.kind ≠ .endOfInput) (limit : Nat)
    (h : Standing tokens around .zero s) :
    Proceeds tokens around .zero (program ⟨.standard, limit⟩ s) := by
  have hturn : ∀ exprs s, Standing tokens around .zero s →
      Proceeds tokens around .zero (programTurn (expression .standard limit) exprs s) := by
    intro exprs s hs
    unfold programTurn
    rw [peek_bind]
    split
    · exact .ok hs
    · apply Proceeds.bind (proceeds_expression endFree limit 0 hs)
      intro e s₁ hs₁
      exact .ok hs₁
  exact .iterate endFree hturn [] h

/-- A reader before its first token. -/
theorem standing_ofTokens (tokens : List Token) :
    Standing (tokens.takeWhile (·.kind != .endOfInput)) ⟨[], [], List.forall_mem_nil _⟩ .zero
      (.ofTokens tokens) :=
  ⟨⟨[], [], rfl, .nested .nil, .zero⟩, List.forall_mem_nil _⟩

section Tokens

variable {limit : Nat}

/-- The tokens before the end of the input are others. -/
theorem endFree_takeWhile (tokens : List Token) :
    ∀ t ∈ tokens.takeWhile (·.kind != .endOfInput), t.kind ≠ .endOfInput := by
  intro t ht
  simpa using List.mem_takeWhile_imp ht

/-- The brackets of an input that is read are nested. -/
theorem nested_of_readTokens {e? : Option Expr}
    (h : readTokens ⟨.standard, limit⟩ tokens = .ok e?) :
    Nested (tokens.takeWhile (·.kind != .endOfInput)) := by
  obtain ⟨s, hs⟩ := exists_program_ok h
  have hproceeds := proceeds_program (endFree_takeWhile tokens) limit (standing_ofTokens tokens)
  rw [hs] at hproceeds
  cases hproceeds with
  | ok standing =>
    -- nothing is left open at the end of the input
    have hnil := standing.rest_eq_nil (endFree_takeWhile tokens) (current_of_program hs)
    obtain ⟨passed, openings, htokens, hpassed, htracks⟩ := standing.passed
    rw [hnil, List.append_nil] at htokens
    obtain rfl : openings = [] := htracks.openings_eq
    rw [htokens]
    exact hpassed.nested_of_nil

/-- A bracket that is reported as unclosed is one. -/
theorem unclosed_of_readTokens {loc : Location}
    (h : readTokens ⟨.standard, limit⟩ tokens = .error (.unclosedBracket loc)) :
    Unclosed (tokens.takeWhile (·.kind != .endOfInput)) loc := by
  have hproceeds := proceeds_program (endFree_takeWhile tokens) limit (standing_ofTokens tokens)
  rw [program_error h] at hproceeds
  cases hproceeds with
  | error blames _ _ => exact blames loc rfl

/-- Tokens that are accepted are nested, and a bracket that is blamed for an error is one that no
    token closes, so that there is none to blame in nested tokens. What follows the end of the input
    does not matter. -/
theorem nesting_of_readTokens (limit : Nat) (tokens : List Token) :
    (∀ e?, readTokens ⟨.standard, limit⟩ tokens = .ok e? →
      Nested (tokens.takeWhile (·.kind != .endOfInput))) ∧
    (∀ loc, readTokens ⟨.standard, limit⟩ tokens = .error (.unclosedBracket loc) →
      Unclosed (tokens.takeWhile (·.kind != .endOfInput)) loc) ∧
    (Nested (tokens.takeWhile (·.kind != .endOfInput)) →
      ∀ loc, readTokens ⟨.standard, limit⟩ tokens ≠ .error (.unclosedBracket loc)) :=
  ⟨fun _ => nested_of_readTokens, fun _ => unclosed_of_readTokens, fun nested loc h =>
    nested.not_unclosed loc (unclosed_of_readTokens h)⟩

/-- The tokens of `<|(a)|>`. -/
def nestedAtom : List Token :=
  [⟨.leftAssociation, "<|", .zero⟩, ⟨.leftParen, "(", .zero⟩, ⟨.symbol, "a", .zero⟩,
    ⟨.rightParen, ")", .zero⟩, ⟨.rightAssociation, "|>", .zero⟩]

/-- The tokens of `()`. -/
def emptyGroup : List Token :=
  [⟨.leftParen, "(", .zero⟩, ⟨.rightParen, ")", .zero⟩]

/-- An atom within brackets, calls with two open brackets, and nested tokens that are refused. -/
theorem nesting_atomAndCalls :
    (readTokens ⟨.standard, 128⟩ nestedAtom =
        .ok (some (.node (.symbol "Association" .zero) [.symbol "a" .zero] false .zero)) ∧
      Nested (nestedAtom.takeWhile (·.kind != .endOfInput))) ∧
    (readTokens ⟨.standard, 128⟩ openCalls = .error (.unclosedBracket .zero) ∧
      Unclosed (openCalls.takeWhile (·.kind != .endOfInput)) .zero) ∧
    Nested (emptyGroup.takeWhile (·.kind != .endOfInput)) ∧
      ∀ loc, readTokens ⟨.standard, 128⟩ emptyGroup ≠ .error (.unclosedBracket loc) := by
  have hatom : readTokens ⟨.standard, 128⟩ nestedAtom =
      .ok (some (.node (.symbol "Association" .zero) [.symbol "a" .zero] false .zero)) := by
    decide +kernel
  have hcalls : readTokens ⟨.standard, 128⟩ openCalls = .error (.unclosedBracket .zero) := by
    decide +kernel
  -- the tokens before the end are an empty pair of brackets
  have hempty : Nested [] := .nil
  have hgroup : Nested (emptyGroup.takeWhile (·.kind != .endOfInput)) :=
    .bracketed rfl hempty hempty
  exact ⟨⟨hatom, (nesting_of_readTokens 128 nestedAtom).1 _ hatom⟩,
    ⟨hcalls, (nesting_of_readTokens 128 openCalls).2.1 _ hcalls⟩,
    hgroup, (nesting_of_readTokens 128 emptyGroup).2.2 hgroup⟩

end Tokens

end Symbolic.Reader
