import Symbolic.Proofs.Lockstep.Course
import Symbolic.Proofs.Lockstep.Symbol

/-!
# Every step keeps the readers in step

If the two readers come out of reading expressions in one of the ways that two readers in lockstep
can, so they do of each step that is made of such readings.

## Key results

- `Companions`: how the two readers come out of reading expressions
- `Paired.outcome`: how they come out of any step
-/

namespace Symbolic.Reader

open Parse Filter

variable {α β : Type} {course : Course} {frame : Frame} {level before between after : Level}
  {s s' t t' : State} {room : Nat} {p : Precedence}

/-- How the two readers come out of reading an expression, when the first has the given room. -/
structure Companions (course : Course) (room : Nat) : Prop where
  outcome : ∀ p {frame s t}, Sync course frame .zero s t →
    Outcome course frame .zero (expression .standard room p s)
      fun room' => Forgetful.expression .standard room' p t
  /-- Where the first reader ends with something else than a symbol, the second one does not get
      to a symbol. -/
  symbol : ∀ p {frame s t v s'}, Sync course frame .zero s t →
    expression .standard room p s = .ok v s' → Ended course frame .zero s' →
    ¬FailedAtEnd course.stop s'.failures → v.IsNoSymbol → ∀ room' w t',
      Forgetful.expression .standard room' p t = .ok w t' → w.IsNoSymbol

/-! ## The second reader -/

/-- The scene of the second reader, which remembers nothing. -/
def Course.scene (course : Course) : Scene :=
  .innermost (course.tokens ++ course.after) course.stop' (· = [])

/-- The second reader is like itself at what is left for the first. -/
theorem Sited.alike (h : Sited course s t) : Alike course.scene [] t.brackets t.brackets t t where
  rest := rfl
  suffix := by
    obtain ⟨passed, hpassed⟩ := h.suffix
    exact ⟨passed, by rw [h.rest, ← List.append_assoc, hpassed]; rfl⟩
  stop := h.stop'
  stop' := h.stop'
  brackets := rfl
  brackets' := rfl
  known := h.forgetful

/-- Where the second reader is after a failure. -/
theorem Sync.right_of_error (h : Sync course frame .zero s t) {e : SyntaxError}
    (he : e.isRecoverable = true) (ht : Forgetful.expression .standard room p t = .error e t') :
    Right course frame t' := by
  have hmeets := (follows_forgetful .standard (Nat.le_refl room) p).meets rfl rfl h.alike
  rw [ht] at hmeets
  have houter := h.outer'
  rcases hmeets with _ | ⟨-, hstop, -, hbrackets, hknown⟩ | hfinal
  · exact ⟨hstop, hbrackets ▸ houter.trans (List.suffix_append _ _), hknown⟩
  · rw [he] at hfinal
    cases hfinal

/-! ## Before the end of an element -/

/-- No expression starts before a token that ends an element. -/
theorem leading_of_elementEnds {expr : Precedence → Parse Expr}
    (h : t.current.kind ∈ elementEnds) :
    leading .standard expr t = .error t.unexpected t := by
  unfold leading
  rw [peek_bind]
  simp only [elementEnds, List.mem_cons, List.not_mem_nil, or_false] at h
  rcases h with h | h | h | h | h <;> rw [h] <;> rfl

/-- Where an element ends, no expression starts. -/
theorem eventually_barred (h : t.current.kind ∈ elementEnds) :
    ∀ᶠ room in atTop, Barred (Forgetful.expression .standard room) t := by
  refine eventually_atTop.mpr ⟨1, fun room hroom p => ?_⟩
  obtain ⟨room, rfl⟩ : ∃ n, room = n + 1 := ⟨room - 1, by omega⟩
  exact ⟨t.unexpected, isRecoverable_unexpected t, bind_error (leading_of_elementEnds h)⟩

/-- A failure to read an expression is on record afterwards. -/
theorem exists_mem_of_error {e : SyntaxError} (h : expression .standard room p s = .error e s')
    (he : e.isRecoverable = true) : ∃ occasion, (occasion, e) ∈ s'.failures := by
  cases room with
  | zero =>
    cases h
    cases he
  | succ room =>
    rcases remember_error h with ⟨hlookup, rfl⟩ | ⟨s₁, -, rfl⟩
    · exact ⟨_, mem_of_lookup hlookup⟩
    · rw [if_pos he]
      exact ⟨_, List.mem_cons_self⟩

/-- A failure about the end of the input goes on record. -/
theorem failedAtEnd_of_error {e : SyntaxError} {stop : Location}
    (h : expression .standard room p s = .error e s') (he : e.isRecoverable = true)
    (habout : e.IsAboutEnd stop) : FailedAtEnd stop s'.failures := by
  obtain ⟨occasion, hmem⟩ := exists_mem_of_error h he
  exact ⟨_, hmem, habout⟩

/-! ## Tokens and delimiters -/

/-- A token that does not end the input is the same for both. -/
theorem Sync.current_eq_of_kind {kind : TokenKind} (h : Sync course frame level s t)
    (hkind : s.current.kind = kind) (hne : kind ≠ .endOfInput) : t.current = s.current :=
  h.toSited.current_eq (ne_nil_of_kind hkind hne)

/-- Both pass over a token that they have looked at. -/
theorem Sync.advance {kind : TokenKind} (h : Sync course frame before s t)
    (hkind : s.current.kind = kind) (hne : kind ≠ .endOfInput)
    (hbrackets : after.brackets = before.brackets)
    (htotal : (after.total : Int) = before.total - kind.balance) :
    Outcome course frame after (advance s) fun _ => Parse.advance t := by
  have hpass := h.pass_plain (ne_nil_of_kind hkind hne) hbrackets (hkind ▸ htotal)
  simp only [Parse.advance, h.current_eq_of_kind hkind hne]
  exact hpass.outcome (.of_forall fun _ => rfl)

/-- Both open a bracket. -/
theorem Sync.openBracket {kind closer : TokenKind} (h : Sync course frame level s t)
    (hkind : s.current.kind = kind) (hopens : kind.closer? = some closer) :
    Outcome course frame (level.opened closer) (openBracket s) fun _ => Parse.openBracket t := by
  have hbalance := (balance_of_closer? hopens).1
  have hne := ne_endOfInput_of_balance hbalance (by decide)
  have hlength : (s.current.loc :: s.brackets).length =
      (level.opened closer).brackets + frame.brackets.length := by
    simp only [List.length_cons, h.length, Level.brackets_opened]
    omega
  have hpass := h.pass (ne_nil_of_kind hkind hne) (h.outer.trans (List.suffix_cons _ _)) hlength
    (by rw [hkind, hbalance, Level.total_opened]; omega)
  simp only [Parse.openBracket, h.current_eq_of_kind hkind hne, h.brackets']
  exact hpass.outcome (.of_forall fun _ => rfl)

/-- Both readers find a delimiter, or neither does: an element does not end within brackets. -/
theorem Sync.kind_iff {kind : TokenKind} (h : Sync course frame level s t)
    (hkind : kind ≠ .endOfInput) (hends : kind ∈ elementEnds → level ≠ .zero) :
    t.current.kind = kind ↔ s.current.kind = kind := by
  rcases h.current_cases with ⟨hcurrent, -⟩ | ⟨hending, hnil, hmem⟩
  · rw [hcurrent]
  · have hzero := (h.zero_of_nil hending hnil).1
    have hnot : kind ∉ elementEnds := fun hmem => hends hmem hzero
    constructor
    · exact fun heq => absurd (heq ▸ hmem) hnot
    · exact fun heq => absurd (heq.symm.trans (current_of_nil hnil)) hkind

/-- Both pass over a token that they expect, or both miss it. -/
theorem Sync.expect {kind : TokenKind} (h : Sync course frame before s t)
    (hkind : kind ≠ .endOfInput) (hends : kind ∈ elementEnds → before ≠ .zero)
    (hbrackets : after.brackets = before.brackets)
    (htotal : (after.total : Int) = before.total - kind.balance) :
    Outcome course frame after (expect kind s) fun _ => Parse.expect kind t := by
  have hiff := h.kind_iff hkind hends
  simp only [expect_eq]
  by_cases hs : s.current.kind = kind
  · have hpass := h.pass_plain (ne_nil_of_kind hs hkind) hbrackets (hs ▸ htotal)
    rw [if_pos hs, if_pos (hiff.mpr hs), h.current_eq_of_kind hs hkind]
    exact hpass.outcome (.of_forall fun _ => rfl)
  · rw [if_neg hs, if_neg fun ht => hs (hiff.mp ht)]
    exact h.error (isRecoverable_missing s kind) (isRecoverable_missing t kind)

/-- Both close a bracket, or both miss it. -/
theorem Sync.closeBracket {kind : TokenKind} (h : Sync course frame (level.opened kind) s t)
    (hcloses : kind.balance = 1) :
    Outcome course frame level (closeBracket kind s) fun _ => Parse.closeBracket kind t := by
  have hkind := ne_endOfInput_of_balance hcloses (by decide)
  have hiff := h.kind_iff hkind fun _ => level.opened_ne_zero kind
  simp only [closeBracket_eq]
  by_cases hs : s.current.kind = kind
  · -- the bracket that is closed is one of those opened within, not one of those around
    have hlength := h.length
    rw [Level.brackets_opened] at hlength
    obtain ⟨last, brackets, hbrackets⟩ :=
      List.exists_cons_of_length_pos (l := s.brackets) (by omega)
    rw [hbrackets, List.length_cons] at hlength
    have houter : frame.brackets <:+ s.brackets.tail := by
      have houter := h.outer
      rw [hbrackets] at houter ⊢
      rcases List.suffix_cons_iff.mp houter with heq | hsuffix
      · have := congrArg List.length heq
        simp only [List.length_cons] at this
        omega
      · exact hsuffix
    -- both drop the same bracket from their stacks
    have hpass : Aligned course frame level _ _ := h.pass (ne_nil_of_kind hs hkind) houter
      (by rw [hbrackets, List.tail_cons]; omega)
      (by rw [hs, hcloses, Level.total_opened]; omega)
    have htail : t.brackets.tail = s.brackets.tail ++ course.around := by
      rw [h.brackets', hbrackets]
      rfl
    rw [if_pos hs, if_pos (hiff.mpr hs), h.current_eq_of_kind hs hkind, htail]
    exact hpass.outcome (.of_forall fun _ => rfl)
  · rw [if_neg hs, if_neg fun ht => hs (hiff.mp ht)]
    exact h.error (isRecoverable_missing s kind) (isRecoverable_missing t kind)

/-- At the same token both inputs end, with no bracket open, or neither does. -/
theorem Sync.isFinal_eq (h : Sync course frame level s t) (hcurrent : t.current = s.current)
    (hclosed : s.rest = [] → course.ending = .closed) :
    (t.current.kind == .endOfInput && t.brackets.isEmpty) =
      (s.current.kind == .endOfInput && s.brackets.isEmpty) := by
  rw [hcurrent]
  by_cases hend : s.current.kind = .endOfInput
  · obtain ⟨-, haround, -⟩ := course.closed (hclosed (eq_nil_of_current h.suffix hend))
    rw [h.brackets', haround, List.append_nil]
  · rw [beq_false_of_ne hend, Bool.false_and, Bool.false_and]

/-! ## Operands -/

/-- An operand, which is read within all that is open. -/
theorem outcome_expr (hexpr : Companions course room) (p : Precedence)
    (h : Sync course frame level s t) :
    Outcome course frame level (expression .standard room p s)
      fun room' => Forgetful.expression .standard room' p t := by
  have hlength := h.length
  have hle := frame.length_le
  have hle' := level.brackets_le_total
  -- to the expression all open brackets are brackets around
  let inner : Frame :=
    ⟨s.brackets, level.total + frame.total, by omega⟩
  have hsync : Sync course inner .zero s t :=
    { h with
      outer := List.suffix_refl _
      length := (Nat.zero_add _).symm
      balanced := fun hending => by
        rw [h.balanced hending]
        simp [inner] }
  exact .lift h rfl rfl (hexpr.outcome p hsync)

/-- The operand is refused. -/
def IsRefused (strict : Bool) (operand : Expr) : Prop :=
  (strict && operand.symbolName?.isNone) = true

/-- An operand that is no symbol is refused. -/
theorem symbolOnly_of_isRefused {strict : Bool} {operand : Expr} (h : IsRefused strict operand)
    (first : Token) (v : α) (s : State) :
    symbolOnly strict first operand v s = .error (.unexpectedToken first.loc first.kind) s := by
  unfold symbolOnly
  exact congrFun (if_pos h) s

/-- Any other is accepted. -/
theorem symbolOnly_of_not_isRefused {strict : Bool} {operand : Expr}
    (h : ¬IsRefused strict operand) (first : Token) (v : α) (s : State) :
    symbolOnly strict first operand v s = .ok v s := by
  unfold symbolOnly
  exact congrFun (if_neg h) s

/-- An operand that is refused at the end of the first input would be refused with more tokens
    after it, too. -/
theorem outcome_of_isRefused (hexpr : Companions course room) {strict : Bool} {operand : Expr}
    (g : Expr → α) (h : Sync course frame .zero s t)
    (hs : expression .standard room p s = .ok operand s') (hended : Ended course frame .zero s')
    (hfailed : ¬FailedAtEnd course.stop s'.failures) (hrefused : IsRefused strict operand)
    (first first' : Token) :
    Outcome course frame .zero
      ((expression .standard room p >>= fun operand =>
        symbolOnly strict first operand (g operand)) s)
      fun room' => (Forgetful.expression .standard room' p >>= fun operand =>
        symbolOnly strict first' operand (g operand)) t := by
  obtain ⟨hstrict, hsymbol⟩ : strict = true ∧ operand.symbolName? = none := by
    simpa [IsRefused] using hrefused
  rw [bind_ok _ hs, symbolOnly_of_isRefused hrefused]
  by_cases hroomy : ∃ room₀, ∀ e t', Forgetful.expression .standard room₀ p t = .error e t' →
      e.isRecoverable = true
  · obtain ⟨room₀, hroomy⟩ := hroomy
    cases ht : Forgetful.expression .standard room₀ p t with
    | ok w t₁ =>
      -- the second reader gets through the operand, but reads no symbol either
      have hw : IsRefused strict w := by
        have hw : w.symbolName? = none :=
          hexpr.symbol p h hs hended hfailed hsymbol room₀ w t₁ ht
        simp [IsRefused, hstrict, hw]
      have he' : (SyntaxError.unexpectedToken first'.loc first'.kind).isRecoverable = true := rfl
      refine .error rfl he' hended.toLeft ?_
      refine eventually_atTop.mpr ⟨room₀, fun room' hle => ?_⟩
      obtain ⟨t', ht', halike⟩ :=
        (follows_forgetful .standard hle p).ok_of_ok rfl h.toSited.alike ht
      refine ⟨t', ?_, halike.stop', halike.brackets' ▸ h.outer', halike.known⟩
      rw [bind_ok _ ht', symbolOnly_of_isRefused hw]
    | error e t₁ =>
      have he := hroomy e t₁ ht
      refine .error rfl he hended.toLeft (eventually_atTop.mpr ⟨room₀, fun room' hle => ?_⟩)
      obtain ⟨t', ht'⟩ :=
        (follows_forgetful .standard hle p).error_of_error rfl h.toSited.alike he ht
      exact ⟨t', bind_error ht', h.right_of_error he ht'⟩
  · -- in no room does the second reader get through the operand
    refine .dead hended.loose (.of_forall fun room' => ?_)
    simp only [not_exists, not_forall] at hroomy
    obtain ⟨e, t', ht, he⟩ := hroomy room'
    exact ⟨e, t', bind_error ht, by simpa using he⟩

/-- An operand that has to be a symbol. -/
theorem outcome_symbolOperand (hexpr : Companions course room) (p : Precedence) (strict : Bool)
    (g : Expr → α) (h : Sync course frame .zero s t) (first first' : Token) :
    Outcome course frame .zero
      ((expression .standard room p >>= fun operand =>
        symbolOnly strict first operand (g operand)) s)
      fun room' => (Forgetful.expression .standard room' p >>= fun operand =>
        symbolOnly strict first' operand (g operand)) t := by
  by_cases hrefused : ∃ operand s₁, expression .standard room p s = .ok operand s₁ ∧
      Ended course frame .zero s₁ ∧ ¬FailedAtEnd course.stop s₁.failures ∧ IsRefused strict operand
  · -- the first reader has refused an operand, with no failure about the end on record
    obtain ⟨operand, s₁, hs, hended, hfailed, hrefused⟩ := hrefused
    exact outcome_of_isRefused hexpr g h hs hended hfailed hrefused first first'
  · refine .bind (hexpr.outcome p h) (fun operand s₁ hs hlost => ?_)
      fun operand s₁ t₁ _ hsync => ?_
    · by_cases hoperand : IsRefused strict operand
      · have hfailed : FailedAtEnd course.stop s₁.failures := by
          refine hlost.elim (fun hended => ?_) id
          exact by_contra fun hfailed => hrefused ⟨operand, s₁, hs, hended, hfailed, hoperand⟩
        -- a refusal is in order when the end was met on the way
        rw [symbolOnly_of_isRefused hoperand]
        exact .error (.inr (.inr hfailed))
      · rw [symbolOnly_of_not_isRefused hoperand]
        exact .idle _ rfl
    · by_cases hoperand : IsRefused strict operand
      · simp only [symbolOnly_of_isRefused hoperand]
        exact hsync.error rfl rfl
      · simp only [symbolOnly_of_not_isRefused hoperand]
        exact hsync.pure _

/-! ## Where an element ends -/

/-- At the end of an element the readers do alike, as no brackets are open. -/
theorem outcome_of_endsAlike {place : Place} {m : Parse α} {run run' : Nat → Parse α}
    (h : Sync course frame .zero s t) (hnil : s.rest = []) (hbrackets : s.brackets = [])
    (hkind : t.current.kind ∈ elementEnds) (hplace : place.Holds s)
    (hpaired : Paired (expression .standard room) (Forgetful.expression .standard) place .zero after
      m run')
    (hends : EndsAlike (Forgetful.expression .standard) m run) :
    Outcome course frame after (m s) fun room' => run room' t := by
  rcases hends s t (current_of_nil hnil) hbrackets hkind with
    ⟨v, hs, ht⟩ | ⟨e, e', he, he', hs, ht⟩
  · -- at the end no bracket is opened or closed, so the level stays zero
    have hexcess := hpaired.excess_add (keepsExcess_expression room) hplace hs
    rw [Level.total_zero] at hexcess
    obtain rfl : after = .zero := Level.eq_zero_of_total (by omega)
    rw [hs]
    refine (h.pure v).congr ?_
    filter_upwards [eventually_barred hkind] with room' hbarred
    exact ht room' hbarred
  · rw [hs]
    exact (h.error he he').congr (.of_forall ht)

/-! ## Every step -/

/-- Every step of the reader keeps the two in step. -/
theorem Paired.outcome (hexpr : Companions course room) {place : Place} {m : Parse α}
    {run : Nat → Parse α}
    (h : Paired (expression .standard room) (Forgetful.expression .standard) place before after m
      run) : ∀ {frame : Frame} {s t : State}, place.Holds s → Sync course frame before s t →
      Outcome course frame after (m s) fun room' => run room' t := by
  have hstuck : StuckExpr course.stop (expression .standard room) := stuckExpr_expression room
  -- induction on how the step is put together, with one case for each of its rules
  induction h with
  | pure a => exact fun _ hsync => hsync.pure a
  | bind first then_ ih ih' =>
    exact fun hplace hsync => .bind (ih hplace hsync)
      (fun a s₁ _ hlost => (then_ a).stuck hstuck trivial hlost.spent)
      fun a s₁ t₁ _ hsync₁ => ih' a trivial hsync₁
  | @peek β place before after f next then_ ends ih =>
    intro frame s t hplace hsync
    have hallows := place.allows_of_holds hplace
    change Outcome course frame after (f s.current s) fun room' => next room' t.current t
    rcases hsync.current_cases with ⟨hcurrent, -⟩ | ⟨hending, hnil, hkind⟩
    · rw [hcurrent]
      exact ih s.current hallows rfl hsync
    · -- only the first reader is at the end of its input
      obtain ⟨rfl, hbrackets⟩ := hsync.zero_of_nil hending hnil
      have hend := current_of_nil hnil
      have hmay : place.MayEnd := by
        cases place with
        | anywhere => trivial
        | notFinal => exact absurd hbrackets (hplace hend)
        | «at» kind => exact hplace.symm.trans hend
      have hplace : (Place.at s.current.kind).Holds s := rfl
      exact outcome_of_endsAlike hsync hnil hbrackets hkind hplace
        (then_ s.current hallows)
        (ends hmay rfl s.current t.current hend hkind)
  | @advance kind level plain =>
    exact fun hplace hsync => hsync.advance hplace (notEnd_of_isPlain plain) rfl
      (by rw [balance_of_isPlain plain, Int.sub_zero])
  | openBracket opens => exact fun hplace hsync => hsync.openBracket hplace opens
  | @openInner kind closer level opens =>
    intro frame s t hplace hsync
    have hbalance := (balance_of_closer? opens).1
    exact hsync.advance hplace (ne_endOfInput_of_balance hbalance (by decide)) rfl
      (by rw [hbalance, Level.total_openedInner]; omega)
  | expect plain notEnd =>
    exact fun _ hsync => hsync.expect (notEnd_of_isPlain plain) (fun hmem => absurd hmem notEnd) rfl
      (by rw [balance_of_isPlain plain, Int.sub_zero])
  | @closeInner place level kind closes =>
    -- the inner closer takes back the level that the inner opener added
    exact fun _ hsync => hsync.expect (ne_endOfInput_of_balance closes (by decide))
      (fun _ => level.openedInner_ne_zero kind) rfl
      (by rw [closes, Level.total_openedInner]; omega)
  | closeBracket closes => exact fun _ hsync => hsync.closeBracket closes
  | unexpected =>
    exact fun _ hsync => hsync.error (isRecoverable_unexpected _) (isRecoverable_unexpected _)
  | missing kind =>
    exact fun _ hsync => hsync.error (isRecoverable_missing _ kind) (isRecoverable_missing _ kind)
  | throw notEnd aboutToken =>
    intro frame s t _ hsync
    have he := SyntaxError.isRecoverable_of_isAboutToken aboutToken
    exact hsync.error he he
  | @ofResult _ _ _ _ _ result f _ notEnd aboutToken then_ ih =>
    intro frame s t hplace hsync
    cases result with
    | error e =>
      have he := SyntaxError.isRecoverable_of_isAboutToken (aboutToken e rfl)
      exact hsync.error he he
    | ok a => exact ih a hplace hsync
  | expr p => exact fun _ hsync => outcome_expr hexpr p hsync
  | attempt p =>
    exact fun _ hsync => .attempt hsync (outcome_expr hexpr p hsync) fun e s' =>
      failedAtEnd_of_error
  | @attemptAfter kind plain p =>
    intro frame s t hplace hsync
    have hadvance : Outcome course frame .zero (Parse.advance s) fun _ => Parse.advance t :=
      hsync.advance hplace (notEnd_of_isPlain plain) rfl
        (by rw [balance_of_isPlain plain, Int.sub_zero])
    refine .attempt hsync (.bind hadvance (fun _ s₁ _ hlost => hstuck.stuck p s₁ hlost.spent)
      fun _ s₁ t₁ _ hsync₁ => outcome_expr hexpr p hsync₁) fun e s' h => ?_
    exact failedAtEnd_of_error (p := p) h
  | iterate each a ih =>
    exact fun _ hsync => .iterate (fun a s t hsync => ih a trivial hsync)
      (fun a s hs => (each a).stuck hstuck trivial hs) a hsync
  | @atFinalEnd β before after f next onEnd otherwise ends ih ih' =>
    intro frame s t _ hsync
    change Outcome course frame after
      (f (s.current.kind == .endOfInput && s.brackets.isEmpty) s)
      fun room' => next room' (t.current.kind == .endOfInput && t.brackets.isEmpty) t
    rcases hsync.current_cases with ⟨hcurrent, hclosed⟩ | ⟨hending, hnil, hkind⟩
    · rw [hsync.isFinal_eq hcurrent hclosed]
      cases hfinal : (s.current.kind == .endOfInput && s.brackets.isEmpty) with
      | true => exact ih trivial hsync
      | false => exact ih' (notFinal_of_eq_false hfinal) hsync
    · -- the first reader ends there, the second one does not
      obtain ⟨rfl, hbrackets⟩ := hsync.zero_of_nil hending hnil
      have hne : t.current.kind ≠ .endOfInput := by
        intro heq
        rw [heq] at hkind
        revert hkind
        decide
      rw [current_of_nil hnil, hbrackets, beq_false_of_ne hne]
      have hplace : Place.anywhere.Holds s := trivial
      exact outcome_of_endsAlike hsync hnil hbrackets hkind hplace onEnd ends
  | symbolOperand p strict g =>
    exact fun _ hsync => outcome_symbolOperand hexpr p strict g hsync _ _

end Symbolic.Reader
