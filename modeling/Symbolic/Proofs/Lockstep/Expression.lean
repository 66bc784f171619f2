import Symbolic.Proofs.Lockstep.Steps

/-!
# Expressions and inputs in lockstep

Every expression keeps the two readers in step. The first reader may remember that an expression
cannot be read where it stands; then the second one fails there, too.

## Key results

- `companions`: how two readers come out of reading an expression
- `outcome_program`: how they come out of reading whole inputs
- `exists_sync_of_readTokens`: what is accepted is accepted without a memory
-/

namespace Symbolic.Reader

open Parse Filter

variable {α β : Type} {course : Course} {frame : Frame} {level before between after : Level}
  {s s' s₁ t t' t₁ : State} {room room' : Nat} {p : Precedence} {e v w : Expr}

/-! ## The memory of the first reader -/

/-- Stacks of brackets with the same top have it in common before anything else. -/
theorem head?_append_eq {a b around : List Location} (hlength : a.length = b.length)
    (hhead : a.head? = b.head?) : (a ++ around).head? = (b ++ around).head? := by
  cases a with
  | nil => rw [List.length_eq_zero_iff.mp hlength.symm]
  | cons x a =>
    cases b with
    | nil => cases hlength
    | cons y b => exact hhead

/-- What fails for the second reader fails wherever the first one would take it for the same. -/
theorem Sited.fails_of_occasion (h : Sited course s t) (h₁ : Sited course s₁ t₁)
    (hoccasion : s₁.occasion p = s.occasion p) (hfails : Fails p t) : Fails p t₁ := by
  simp only [State.occasion, Occasion.mk.injEq] at hoccasion
  obtain ⟨hrest, -, hlength, hhead⟩ := hoccasion
  have hrest : s₁.rest = s.rest :=
    (List.suffix_of_suffix_length_le h₁.suffix h.suffix hrest.le).eq_of_length hrest
  -- the second reader, at another time, stands before the same tokens
  have halike : Alike course.scene [] t.brackets t₁.brackets t t₁ :=
    { h.alike with
      rest := by rw [h₁.rest, h.rest, hrest]
      stop' := h₁.stop'
      brackets' := rfl
      known := h₁.forgetful }
  have hheads : t.brackets.head? = t₁.brackets.head? := by
    rw [h.brackets', h₁.brackets']
    exact head?_append_eq hlength.symm hhead.symm
  obtain ⟨e, he, hfails⟩ := hfails
  refine ⟨e, he, ?_⟩
  filter_upwards [hfails] with room hroom
  obtain ⟨t', ht'⟩ := hroom
  exact (follows_forgetful .standard (Nat.le_refl room) p).error_of_error hheads halike he ht'

/-- One more failure of the first reader that the second reader has as well. -/
theorem Known.cons {failures : List (Occasion × SyntaxError)} {error : SyntaxError}
    (h : Known course failures) (hsync : Sync course frame level s t)
    (he : error.isRecoverable = true) (hfails : Fails p t) :
    Known course ((s.occasion p, error) :: failures) := by
  intro failure hmem
  rcases List.mem_cons.mp hmem with rfl | hold
  · refine ⟨he, fun hloose hnil => ?_, fun s₁ t₁ hsited₁ hoccasion =>
      hsync.toSited.fails_of_occasion hsited₁ hoccasion hfails⟩
    exact hsync.live hloose (List.length_eq_zero_iff.mp hnil)
  · exact h failure hold

/-- The memory of the first reader answers as the second reader does. -/
theorem outcome_remember {step : Parse Expr} (h : Sync course frame .zero s t)
    (hstep : Outcome course frame .zero (step s)
      fun room' => Forgetful.expression .standard room' p t) :
    Outcome course frame .zero (remember p step s)
      fun room' => Forgetful.expression .standard room' p t := by
  unfold remember
  split
  · -- the memory answers in place of the step
    rename_i hlookup
    have hnoted := h.known _ (mem_of_lookup hlookup)
    have he := hnoted.recoverable
    obtain ⟨e', he', ht⟩ := hnoted.fails s t h.toSited rfl
    refine .error he he' h.toLeft ?_
    filter_upwards [ht] with room' hroom
    obtain ⟨t', ht⟩ := hroom
    exact ⟨t', ht, h.right_of_error he' ht⟩
  · revert hstep
    generalize step s = r
    rintro (⟨sync, ht⟩ | ⟨he, he', left, ht⟩ | hfinal | ⟨hloose, ht⟩ | hended |
      ⟨hloose, hfailed⟩ | ⟨hloose, hfailed⟩)
    · exact .ok sync ht
    · -- a failure that goes on record
      dsimp only
      rw [if_pos he]
      have hfails : Fails p t := ⟨_, he', ht.mono fun room' ⟨t', ht, _⟩ => ⟨t', ht⟩⟩
      exact .error he he' { left with known := left.known.cons h he hfails } ht
    · dsimp only
      rw [if_neg (by simp [hfinal])]
      exact .final hfinal
    · exact .dead hloose ht
    · exact .ended hended
    · exact .failedOk hloose hfailed
    · dsimp only
      split
      · refine .failedError hloose (.inr ?_)
        rcases hfailed with habout | ⟨failure, hmem, hfailure⟩
        · exact ⟨_, List.mem_cons_self, habout⟩
        · exact ⟨failure, List.mem_cons_of_mem _ hmem, hfailure⟩
      · exact .failedError hloose hfailed

/-! ## Symbols at the end of the first input -/

/-- Where both readers succeed, they do so in step, unless the first one has come to its end. -/
theorem Outcome.eq_or_ended {v w : α} {results : Nat → EStateM.Result SyntaxError State α}
    (h : Outcome course frame level (.ok v s') results)
    (hfailed : ¬FailedAtEnd course.stop s'.failures)
    (hresults : ∀ᶠ room in atTop, ∃ t₁, results room = .ok w t₁ ∧
      Alike course.scene [] t.brackets t.brackets t' t₁) :
    (v = w ∧ ∃ t₁, Sync course frame level s' t₁ ∧
      Alike course.scene [] t.brackets t.brackets t' t₁) ∨ Ended course frame level s' := by
  rcases h with ⟨sync, h⟩ | _ | _ | ⟨-, h⟩ | hended | ⟨-, h⟩
  · obtain ⟨room, ht, t₁, ht₁, halike⟩ := (h.and hresults).exists
    rw [ht] at ht₁
    cases ht₁
    exact .inl ⟨rfl, _, sync, halike⟩
  · obtain ⟨room, ⟨error, t₁, ht, -⟩, t₂, ht₂, -⟩ := (h.and hresults).exists
    rw [ht] at ht₂
    cases ht₂
  · exact .inr hended
  · exact absurd h hfailed

/-- A success of the second reader is one for any more room. -/
theorem eventually_ok {m : Nat → Parse α} {w : α}
    (hfollows : ∀ room', room ≤ room' → Follows course.scene 0 0 (m room) (m room'))
    (h : Sited course s t) (ht : m room t = .ok w t') :
    ∀ᶠ room' in atTop, ∃ t₁, m room' t = .ok w t₁ ∧
      Alike course.scene [] t.brackets t.brackets t' t₁ :=
  eventually_atTop.mpr ⟨room, fun room' hle => (hfollows room' hle).ok_of_ok rfl h.alike ht⟩

/-- Both readers read the same, or the first has come to the end of its input. -/
theorem Companions.eq_or_ended (hexpr : Companions course room)
    (h : Sync course frame level s t) (hs : expression .standard room p s = .ok v s')
    (hfailed : ¬FailedAtEnd course.stop s'.failures)
    (ht : Forgetful.expression .standard room' p t = .ok w t') :
    v = w ∨ Ended course frame level s' := by
  have houtcome := outcome_expr hexpr p h
  rw [hs] at houtcome
  refine (houtcome.eq_or_ended hfailed (eventually_ok (fun _ hle =>
    follows_forgetful .standard hle p) h.toSited ht)).imp_left And.left

/-- No expression is read where nothing is left. -/
theorem ne_ok_of_nil (hnil : s.rest = []) : expression .standard room p s ≠ .ok v s' := by
  intro h
  have hends := not_endsOperand_of_expression h
  rw [current_of_nil hnil] at hends
  cases hends

/-- Which leading form there is depends on the token only. -/
theorem leading_form (kind : TokenKind) :
    (∃ op, op.kind = kind ∧ ∀ expr s, s.current.kind = kind →
      leading .standard expr s = prefixed .standard expr op s) ∨
    (kind = .leftParen ∧ ∀ expr s, s.current.kind = kind →
      leading .standard expr s = group expr s) ∨
    (∃ head closer, ∀ expr s, s.current.kind = kind →
      leading .standard expr s = bracketed .standard expr head closer s) ∨
    (∀ expr s, s.current.kind = kind → leading .standard expr s = atom .standard s) ∨
    ∀ expr s, s.current.kind = kind → leading .standard expr s = unexpected s := by
  -- in the order in which the reader tries them: operators, brackets, atoms
  cases hfound : OperatorTable.standard.lookup? kind .prefixed with
  | some op =>
    have hop : op.kind = kind := (Prod.mk.inj (OperatorTable.key_of_lookup? hfound)).1
    refine .inl ⟨op, hop, fun expr s hkind => ?_⟩
    unfold leading
    rw [peek_bind, hkind, hfound]
  | none =>
    refine .inr ?_
    by_cases hparen : kind = .leftParen
    · subst hparen
      refine .inl ⟨rfl, fun expr s hkind => ?_⟩
      unfold leading
      rw [peek_bind, hkind]
      rfl
    by_cases hbrace : kind = .leftBrace
    · subst hbrace
      refine .inr (.inl ⟨"List", .rightBrace, fun expr s hkind => ?_⟩)
      unfold leading
      rw [peek_bind, hkind]
      rfl
    by_cases hassociation : kind = .leftAssociation
    · subst hassociation
      refine .inr (.inl ⟨"Association", .rightAssociation, fun expr s hkind => ?_⟩)
      unfold leading
      rw [peek_bind, hkind]
      rfl
    refine .inr (.inr ?_)
    -- nothing else is left to try
    have hlast : ∀ expr s, s.current.kind = kind → leading .standard expr s =
        (if kind.isAtom then atom .standard else unexpected) s := by
      intro expr s hkind
      unfold leading
      rw [peek_bind, hkind, hfound]
      dsimp only
      split <;> first | contradiction | rfl
    cases hatom : kind.isAtom with
    | true => exact .inl fun expr s hkind => by rw [hlast expr s hkind, if_pos hatom]
    | false =>
      exact .inr fun expr s hkind => by rw [hlast expr s hkind, if_neg (by simp [hatom])]

/-- What a plus sign reads is its operand, in another place. -/
theorem plus_ok {expr : Precedence → Parse Expr} {op : Operator}
    (h : plus expr op s = .ok e s') :
    ∃ operand, expr op.precedence { s with rest := s.rest.tail } = .ok operand s' ∧
      (e.IsNoSymbol ↔ operand.IsNoSymbol) := by
  unfold plus at h
  obtain ⟨sign, s₁, hadvance, h⟩ := exists_of_bind_ok h
  cases hadvance
  obtain ⟨operand, s₂, hoperand, h⟩ := exists_of_bind_ok h
  split at h
  · cases h
    exact ⟨_, hoperand, Iff.rfl⟩
  · cases h
    refine ⟨operand, hoperand, ?_⟩
    -- only the location of the operand changes
    cases operand <;> rfl

/-- What a group reads is what is inside it. -/
theorem group_eq_ok {expr : Precedence → Parse Expr} (h : group expr s = .ok e s') :
    ∃ inside s₂, expr 0 { s with rest := s.rest.tail, brackets := s.current.loc :: s.brackets } =
        .ok inside s₂ ∧ s₂.current.kind = .rightParen ∧ s'.failures = s₂.failures ∧
        (e.IsNoSymbol ↔ inside.IsNoSymbol) := by
  unfold group at h
  obtain ⟨opening, s₁, hopening, h⟩ := exists_of_bind_ok h
  cases hopening
  obtain ⟨inside, s₂, hinside, h⟩ := exists_of_bind_ok h
  obtain ⟨closing, s₃, hclosing, h⟩ := exists_of_bind_ok h
  rw [closeBracket_eq] at hclosing
  split at hclosing
  · rename_i hkind
    cases hclosing
    refine ⟨inside, s₂, hinside, hkind, ?_⟩
    -- a group is its inside, but for the brackets
    cases inside <;> cases h <;> exact ⟨rfl, Iff.rfl⟩
  · cases hclosing

/-- What an atom reads is what its token stands for. -/
theorem atom_ok (h : atom .standard s = .ok e s') : Expr.atom .standard s.current = .ok e := by
  unfold atom at h
  rw [peek_bind] at h
  cases hatom : Expr.atom .standard s.current with
  | error error =>
    rw [hatom] at h
    cases h
  | ok e =>
    rw [hatom] at h
    cases h
    rfl

/-- Readers that stand at the same place are in step if an expression can be read there. -/
theorem Aligned.sync_of_ok (h : Aligned course frame level s t)
    (hs : expression .standard room p s = .ok e s') : Sync course frame level s t :=
  { h with live := fun _ hnil => ne_ok_of_nil hnil hs }

/-- Where the second reader gets a symbol to start with, so does the first. -/
theorem Companions.symbol_of_leading (hexpr : Companions course room)
    (h : Sync course frame .zero s t) (hne : s.rest ≠ [])
    (hs : leading .standard (expression .standard room) s = .ok e s')
    (hfailed : ¬FailedAtEnd course.stop s'.failures)
    (ht : leading .standard (Forgetful.expression .standard room') t = .ok w t')
    (hw : ¬w.IsNoSymbol) : ¬e.IsNoSymbol := by
  have hkind : t.current.kind = s.current.kind := by rw [h.toSited.current_eq hne]
  rcases leading_form s.current.kind with
    ⟨op, hkindOp, hform⟩ | ⟨hparen, hform⟩ | ⟨head, closer, hform⟩ | hform | hform
  · -- of the prefix operators a plus is the one that may leave its operand as it is
    rw [hform _ s rfl] at hs
    rw [hform _ t hkind] at ht
    by_cases hop : op.kind = .plus
    · have hprefixed : ∀ expr, prefixed .standard expr op = plus expr op := by
        intro expr
        unfold prefixed
        rw [hop]
      rw [hprefixed] at hs ht
      obtain ⟨operand, hoperand, he⟩ := plus_ok hs
      obtain ⟨operand', hoperand', hw'⟩ := plus_ok ht
      have hpass : Aligned course frame .zero _ _ :=
        h.pass_plain hne rfl (by rw [← hkindOp, hop]; rfl)
      have hsync := hpass.sync_of_ok hoperand
      rw [he]
      rw [hw'] at hw
      rcases hexpr.eq_or_ended hsync hoperand hfailed hoperand' with rfl | hended
      · exact hw
      · exact fun hoperandIs =>
          hw (hexpr.symbol _ hsync hoperand hended hfailed hoperandIs _ _ _ hoperand')
    · exact absurd (gives_prefixed hop t w t' ht) hw
  · -- parentheses yield what is in them
    rw [hform _ s rfl] at hs
    rw [hform _ t hkind] at ht
    obtain ⟨inside, s₂, hinside, hclosing, hfailures, he⟩ := group_eq_ok hs
    obtain ⟨inside', t₂, hinside', -, -, hw'⟩ := group_eq_ok ht
    have hlength : (s.current.loc :: s.brackets).length =
        (Level.zero.opened .rightParen).brackets + frame.brackets.length := by
      rw [List.length_cons, h.length, Level.brackets_opened]
      omega
    have hpass := h.pass hne (h.outer.trans (List.suffix_cons _ _)) hlength (by rw [hparen]; rfl)
    rw [h.toSited.current_eq hne, h.brackets'] at hinside'
    rw [he]
    rw [hw'] at hw
    rcases hexpr.eq_or_ended (hpass.sync_of_ok hinside) hinside (hfailures ▸ hfailed) hinside' with
      rfl | hended
    · exact hw
    · -- a closing parenthesis follows, so this is not the end
      rw [current_of_nil hended.rest] at hclosing
      cases hclosing
  · -- lists and associations are no symbols
    rw [hform _ t hkind] at ht
    exact absurd (gives_bracketed head closer t w t' ht) hw
  · -- both readers are at the same atom
    rw [hform _ s rfl] at hs
    rw [hform _ t hkind] at ht
    have hatom := (atom_ok hs).symm.trans (h.toSited.current_eq hne ▸ atom_ok ht)
    cases hatom
    exact hw
  · rw [hform _ s rfl] at hs
    cases hs

/-- The end of the input stops every expression. -/
theorem stops_endOfInput (p : Precedence) : OperatorTable.standard.Stops p .endOfInput :=
  ⟨by decide, fun _ hq => nomatch hq⟩

/-- The end of the input ends every operand. -/
theorem stops_before_nil (s : State) (p : Precedence) :
    OperatorTable.standard.Stops p (s.before []).current.kind :=
  stops_endOfInput p

/-- When the first reader runs out of its input behind a form that is no symbol, the second reads no
    symbol either. -/
theorem Companions.symbol_of_chain (hexpr : Companions course room)
    (h : Sync course frame .zero s t)
    (hs : chain .standard (expression .standard room) p s = .ok v s')
    (hended : Ended course frame .zero s') (hfailed : ¬FailedAtEnd course.stop s'.failures)
    (hv : v.IsNoSymbol)
    (ht : chain .standard (Forgetful.expression .standard room') p t = .ok w t') :
    w.IsNoSymbol := by
  by_contra hw
  have hne := h.live hended.loose
  obtain ⟨lhs, s₁, hleading, hs⟩ := exists_of_bind_ok hs
  obtain ⟨lhs', t₁, hleading', ht⟩ := exists_of_bind_ok ht
  obtain ⟨rfl, rfl, hdone⟩ := iterate_trailing_symbol ht hw
  have hfailed₁ : ¬FailedAtEnd course.stop s₁.failures := by
    intro hfailed₁
    -- what is on record after the leading form is so at the end
    have hpaired : Paired (expression .standard room) (Forgetful.expression .standard)
        .anywhere .zero .zero (iterate (trailing .standard (expression .standard room) p) lhs) _ :=
      .iterate (paired_trailing p) lhs
    have hstuck := hpaired.stuck (stuckExpr_expression room) trivial (.inl hfailed₁)
    rw [hs] at hstuck
    exact hfailed (hstuck.failed_of_ok hfailed₁)
  have hplace : Place.anywhere.Holds s := trivial
  have houtcome := paired_leading.outcome hexpr hplace h
  rw [hleading] at houtcome
  have hresults := eventually_ok
    (m := fun room => leading .standard (Forgetful.expression .standard room))
    (fun _ hle => follows_leading fun q => follows_forgetful .standard hle q) h.toSited hleading'
  rcases houtcome.eq_or_ended hfailed₁ hresults with ⟨rfl, t₂, hsync, halike⟩ | hended₁
  · -- both go on before the same token, which does not extend the symbol
    have hcurrent : s₁.current.kind = t'.current.kind := by
      rw [← hsync.toSited.current_eq (hsync.live hended.loose), halike.current_eq]
    have hends := (trailing_done_iff.mp hdone).1
    rw [iterate_done (trailing_done_iff.mpr ⟨hcurrent ▸ hends, rfl, rfl⟩)] at hs
    cases hs
    exact hw hv
  · have hstops := stops_endOfInput p
    rw [← current_of_nil hended₁.rest] at hstops
    rw [iterate_of_stops hstops] at hs
    cases hs
    exact hexpr.symbol_of_leading h hne hleading hfailed hleading' hw hv

/-! ## Expressions and inputs -/

/-- Expressions keep the readers in step, whatever room there is. -/
theorem companions (course : Course) (room : Nat) : Companions course room := by
  -- induction on the room of the first reader
  induction room with
  | zero => exact ⟨fun _ _ _ _ _ => .final rfl, fun _ _ _ _ _ _ _ hs => nomatch hs⟩
  | succ room ih =>
    refine ⟨fun p frame s t h => outcome_remember h ?_,
      fun p frame s t v s' h hs hended hfailed hv room' w t' ht => ?_⟩
    · have hplace : Place.anywhere.Holds s := trivial
      -- the second reader needs one more level as well
      refine ((paired_chain p).outcome ih hplace h).reindex (tendsto_sub_atTop_nat 1)
         (eventually_atTop.mpr ⟨1, fun n hn => ?_⟩)
      obtain ⟨n, rfl⟩ : ∃ k, n = k + 1 := ⟨n - 1, by omega⟩
      rfl
    · cases room' with
      | zero => cases ht
      | succ room' =>
        exact ih.symbol_of_chain h (eq_ok_of_remember hs) hended hfailed hv ht

/-- At the end of the input no further expression is read. -/
theorem stuck_programTurn {stop : Location} (exprs : List Expr) (hs : Spent stop s) :
    Stuck stop s level level (programTurn (expression .standard room) exprs s) := by
  unfold programTurn
  rw [peek_bind]
  split
  · exact .idle _ rfl
  · have hexpr : Stuck stop s level level (expression .standard room 0 s) :=
      ((stuckExpr_expression room).stuck 0 s hs).lift
    exact .bind hs hexpr
      fun _ _ _ _ => .idle _ rfl

/-- Whole inputs keep the readers in step. -/
theorem outcome_program (room : Nat) (hending : course.ending ≠ .stopped) (exprs : List Expr)
    (h : Sync course frame .zero s t) :
    Outcome course frame .zero (iterate (programTurn (expression .standard room)) exprs s)
      fun room' => iterate (programTurn (Forgetful.expression .standard room')) exprs t := by
  refine .iterate (fun exprs s t h => ?_) (fun exprs s hs => stuck_programTurn exprs hs) exprs h
  unfold programTurn
  simp only [peek_bind]
  rcases h.current_cases with ⟨hcurrent, -⟩ | ⟨hstopped, -⟩
  · rw [hcurrent]
    split
    · exact h.pure _
    · exact .bind ((companions course room).outcome 0 h) (fun _ _ _ _ => .idle _ rfl)
        fun e s₁ t₁ _ hsync => hsync.pure _
  · exact absurd hstopped hending

/-! ## The same input -/

/-- Two readers of the same tokens. -/
def Course.same (tokens : List Token) : Course where
  tokens := (State.ofTokens tokens).rest
  after := []
  stop := (State.ofTokens tokens).stop
  stop' := (State.ofTokens tokens).stop
  around := []
  ending := .closed
  endFree t ht := by simpa using List.mem_takeWhile_imp ht
  closed _ := ⟨rfl, rfl, rfl⟩
  stopped h := nomatch h

/-- No brackets are open around a whole input. -/
def Frame.empty : Frame :=
  ⟨[], 0, Nat.le_refl 0⟩

/-- A reader that remembers nothing has failed nowhere. -/
theorem known_nil : Known course [] :=
  fun _ h => nomatch h

/-- Two readers of the same input start in step. -/
theorem sync_same (tokens : List Token) :
    Sync (.same tokens) .empty .zero (.ofTokens tokens) (.ofTokens tokens) where
  suffix := List.suffix_refl _
  rest := (List.append_nil _).symm
  stop' := rfl
  brackets' := rfl
  forgetful := rfl
  stop := rfl
  outer := List.suffix_refl _
  known := known_nil
  length := rfl
  balanced h := nomatch h
  live h := nomatch h

/-- No tokens hold no expression. -/
theorem readTokens_nil (settings : Settings) : readTokens settings [] = .ok none := by
  have hturn : programTurn (expression settings.table settings.limit) [] (.ofTokens []) =
      .ok (.done none) (.ofTokens []) := rfl
  unfold readTokens run program
  rw [iterate_done hturn]

/-- What the reader accepts it accepts without its memory, given enough room. -/
theorem exists_sync_of_readTokens {limit : Nat} {tokens : List Token} {e? : Option Expr}
    (h : readTokens ⟨.standard, limit⟩ tokens = .ok e?) :
    ∃ s' t', iterate (programTurn (expression .standard limit)) [] (.ofTokens tokens) =
        .ok e? s' ∧ Sync (.same tokens) .empty .zero s' t' ∧
      ∀ᶠ room in atTop, iterate (programTurn (Forgetful.expression .standard room)) []
        (.ofTokens tokens) = .ok e? t' := by
  obtain ⟨s', hs⟩ : ∃ s', iterate (programTurn (expression .standard limit)) []
      (.ofTokens tokens) = .ok e? s' := exists_program_ok h
  have hending : (Course.same tokens).ending ≠ .stopped := fun h => nomatch h
  have houtcome := outcome_program limit hending [] (sync_same tokens)
  rw [hs] at houtcome
  cases houtcome with
  | ok sync ht => exact ⟨s', _, hs, sync, ht⟩
  | dead hloose => cases hloose
  | ended hended => cases hended.loose
  | failedOk hloose => cases hloose

end Symbolic.Reader
