import Symbolic.Proofs.Likeness.Rules

/-!
# A reader moves forward and blames what is there

A reader by itself, with its memory of failures, keeps to the input: it never goes back before the
place where a step began, every bracket it holds for open and every failure it remembers can be
accounted for by a token it has seen, and so can the error it ends with. A step that is said to
gain has passed over a token when it succeeds.

## Key results

- `Evidence`: what is taken for a token of the input, and for a justified error
- `Parallel.careful`: what a derivation says about one reader
- `careful_expression`, `careful_program`: expressions and whole inputs
-/

namespace Symbolic.Reader

open Parse

/-- What is taken for a token of the input, and which errors are justified. An error is justified
    by a token that is at fault, or by a bracket that is open. -/
structure Evidence (table : OperatorTable) where
  token : Token → Prop
  error : SyntaxError → Prop
  faults : ∀ {t : Token} {e : SyntaxError}, token t → table.Faults t e → error e
  unclosed : ∀ {t : Token}, token t → t.kind.closer?.isSome → error (.unclosedBracket t.loc)

/-- All that the reader has before it and all that it remembers is backed by the evidence. -/
structure Orderly {table : OperatorTable} (evidence : Evidence table) (s : State) : Prop where
  rest : ∀ t ∈ s.rest, evidence.token t
  stop : evidence.token (.endOfInput s.stop)
  brackets : ∀ loc ∈ s.brackets, evidence.error (.unclosedBracket loc)
  failures : ∀ failure ∈ s.failures, evidence.error failure.2

/-- An outcome of a step from `s` on that is backed by the evidence, no further back than `s`, and
    further on than `s` if it is a value of which `gains` holds and no token has been passed over
    before. -/
inductive Careful {table : OperatorTable} (evidence : Evidence table) (s : State) (passed : Prop)
    {α : Type} (gains : α → Prop) : EStateM.Result SyntaxError State α → Prop where
  | ok {a : α} {s' : State} (orderly : Orderly evidence s') (suffix : s'.rest <:+ s.rest)
      (stop : s'.stop = s.stop) (progress : gains a → passed ∨ s'.rest.length < s.rest.length) :
      Careful evidence s passed gains (.ok a s')
  | error {e : SyntaxError} {s' : State} (orderly : Orderly evidence s')
      (suffix : s'.rest <:+ s.rest) (stop : s'.stop = s.stop) (justified : evidence.error e) :
      Careful evidence s passed gains (.error e s')

variable {table : OperatorTable} {evidence : Evidence table} {s s' : State} {passed : Prop}
  {α β : Type} {gains : α → Prop}

namespace Orderly

/-- The current token is one of the input. -/
theorem current (h : Orderly evidence s) : evidence.token s.current := by
  unfold State.current
  cases hrest : s.rest with
  | nil => exact h.stop
  | cons t rest => exact h.rest t (by simp [hrest])

/-- Blaming the innermost open bracket in place of the end of the input is justified. -/
theorem faultAt (h : Orderly evidence s) {e : SyntaxError} (he : evidence.error e) :
    evidence.error (s.faultAt e) := by
  unfold State.faultAt
  split
  · cases hbrackets : s.brackets with
    | nil => exact he
    | cons loc rest => exact h.brackets loc (by simp [hbrackets])
  · exact he

/-- The next token may be blamed. -/
theorem unexpected (h : Orderly evidence s) : evidence.error s.unexpected :=
  h.faultAt (evidence.faults h.current .unexpected)

/-- A reader stays orderly when it passes over a token. -/
theorem tail (h : Orderly evidence s) : Orderly evidence { s with rest := s.rest.tail } :=
  { h with rest := fun t ht => h.rest t (List.mem_of_mem_tail ht) }

/-- Going back to where a step began takes up again what was there. -/
theorem rewind (h : Orderly evidence s) (h' : Orderly evidence s') :
    Orderly evidence (s'.rewind s.mark) where
  rest := h.rest
  stop := h'.stop
  brackets := fun loc hloc => h'.brackets loc (List.mem_of_mem_drop hloc)
  failures := h'.failures

end Orderly

namespace Careful

/-- A step that stays where it is. -/
theorem stay (h : Orderly evidence s) {a : α} (progress : gains a → passed) :
    Careful evidence s passed gains (.ok a s) :=
  .ok h (List.suffix_refl _) rfl fun hgains => .inl (progress hgains)

/-- A reader may fail with an error that is justified. -/
theorem fail (h : Orderly evidence s) {e : SyntaxError} (he : evidence.error e) :
    Careful evidence s passed gains (.error e s) :=
  .error h (List.suffix_refl _) rfl he

/-- Passing over a token leaves fewer of them, unless the end of the input has come. -/
theorem length_tail_lt (h : s.current.kind ≠ .endOfInput) :
    s.rest.tail.length < s.rest.length := by
  unfold State.current at h
  cases hrest : s.rest with
  | nil =>
    rw [hrest] at h
    exact absurd rfl h
  | cons t rest => exact Nat.lt_succ_self _

/-- What is careful from further on is careful from here on. -/
theorem trans {passed' : Prop} {gains' : α → Prop} {r : EStateM.Result SyntaxError State α}
    (suffix : s'.rest <:+ s.rest) (stop : s'.stop = s.stop)
    (h : Careful evidence s' passed' gains' r)
    (first : passed' → passed ∨ s'.rest.length < s.rest.length)
    (second : ∀ a, gains a → (passed ∨ s'.rest.length < s.rest.length) ∨ gains' a) :
    Careful evidence s passed gains r := by
  cases h with
  | ok orderly suffix' stop' progress =>
    refine .ok orderly (suffix'.trans suffix) (stop'.trans stop) fun hgains => ?_
    -- a token has been passed over before the second part, or the second part does so itself
    rcases second _ hgains with hfirst | hgains'
    · exact hfirst.imp_right fun hlt => Nat.lt_of_le_of_lt suffix'.length_le hlt
    rcases progress hgains' with hpassed | hlt
    · exact (first hpassed).imp_right fun hlt => Nat.lt_of_le_of_lt suffix'.length_le hlt
    · exact .inr (Nat.lt_of_lt_of_le hlt suffix.length_le)
  | error orderly suffix' stop' justified =>
    exact .error orderly (suffix'.trans suffix) (stop'.trans stop) justified

/-- A step goes on with care where the one before it ended. -/
theorem bind {m : Parse α} {f : α → Parse β} {middle : α → Prop} {gains : β → Prop}
    (hm : Careful evidence s passed middle (m s))
    (hf : ∀ a s', Orderly evidence s' → Careful evidence s' (middle a) gains (f a s')) :
    Careful evidence s passed gains ((m >>= f) s) := by
  show Careful evidence s passed gains (EStateM.bind m f s)
  unfold EStateM.bind
  revert hm
  generalize m s = r
  rintro (⟨orderly, suffix, stop, progress⟩ | ⟨orderly, suffix, stop, justified⟩)
  · exact .trans suffix stop (hf _ _ orderly) progress fun _ => .inr
  · exact .error orderly suffix stop justified

/-- A bracket is opened by a token of the input. -/
theorem openBracket (h : Orderly evidence s) (opens : s.current.kind.closer?.isSome) :
    Careful evidence s passed (fun _ => True) (Parse.openBracket s) := by
  have hkind : s.current.kind ≠ .endOfInput := by
    intro hend
    rw [hend] at opens
    cases opens
  refine .ok { h.tail with brackets := ?_ } (List.tail_suffix _) rfl fun _ =>
    .inr (length_tail_lt hkind)
  intro loc hloc
  rcases List.mem_cons.mp hloc with rfl | hloc
  · exact evidence.unclosed h.current opens
  · exact h.brackets loc hloc

/-- A bracket is closed, or the one that was opened is blamed. -/
theorem closeBracket (h : Orderly evidence s) (closer : TokenKind) :
    Careful evidence s passed (fun _ => passed) (Parse.closeBracket closer s) := by
  rw [closeBracket_eq]
  split
  · exact .ok { h.tail with brackets := fun loc hloc => h.brackets loc (List.mem_of_mem_tail hloc) }
      (List.tail_suffix _) rfl .inl
  · rename_i hkind
    exact .fail h (h.faultAt (evidence.faults h.current (.unmatched hkind)))

/-- An attempt that fails has gained nothing, and takes nothing back. -/
theorem attempt {m : Parse α} (h : Orderly evidence s)
    (hm : Careful evidence s False gains (m s)) :
    Careful evidence s passed (fun _ => passed) (m.attempt s) := by
  unfold Parse.attempt
  revert hm
  generalize m s = r
  rintro (⟨orderly, suffix, stop, progress⟩ | ⟨orderly, suffix, stop, justified⟩)
  · exact .ok orderly suffix stop .inl
  · dsimp only
    split
    · exact .ok (h.rewind orderly) (List.suffix_refl _) stop .inl
    · exact .error orderly suffix stop justified

/-- A loop is careful if its first turn is and if it goes on so from further on. It has got further
    if its first turn goes on, or if that turn ends it and has. -/
theorem iterate_of_first {turn : α → Parse (Turn α β)} {a : α} {gains : β → Prop}
    (hfirst : Careful evidence s passed (fun | .again _ => False | .done b => gains b) (turn a s))
    (hrest : ∀ a s', s'.rest.length < s.rest.length → Orderly evidence s' →
      Careful evidence s' False (fun _ => False) (Parse.iterate turn a s')) :
    Careful evidence s passed gains (Parse.iterate turn a s) := by
  unfold Parse.iterate
  revert hfirst
  generalize turn a s = r
  rintro (@⟨next, s', orderly, suffix, stop, progress⟩ | ⟨orderly, suffix, stop, justified⟩)
  · cases next with
    | done b => exact .ok orderly suffix stop progress
    | again a' =>
      dsimp only
      split
      · -- the turn has passed over a token, so nothing is asked of those after it
        rename_i hlt
        exact .trans suffix stop (hrest a' s' hlt orderly) False.elim fun _ _ => .inl (.inr hlt)
      · exact .error orderly suffix stop orderly.unexpected
  · exact .error orderly suffix stop justified

/-- A loop whose turns are careful is careful. That it gets any further is not said here. -/
theorem iterate {turn : α → Parse (Turn α β)} {moves : Turn α β → Prop}
    (hturn : ∀ a s, Orderly evidence s → Careful evidence s False moves (turn a s)) (a : α)
    (h : Orderly evidence s) :
    Careful evidence s False (fun _ => False) (Parse.iterate turn a s) := by
  -- induction on what remains of the input, which every turn but the last makes shorter
  induction hn : s.rest.length using Nat.strongRecOn generalizing a s with
  | _ n ih =>
    subst hn
    refine iterate_of_first ?_ fun a' s' hlt hs' => ih _ hlt a' hs' rfl
    refine .trans (List.suffix_refl _) rfl (hturn a s h) False.elim fun turn hgains => ?_
    cases turn <;> exact hgains.elim

end Careful

variable {expr : Precedence → Parse Expr} {expr' : Nat → Precedence → Parse Expr}
  {here : Option (Token × Token)} {before after : Nat} [Located α]

/-- What a derivation says about the first of its readers, where its tokens are known. -/
theorem Parallel.careful_here {m : Parse α} {m' : Nat → Parse α}
    (h : Parallel (.only evidence.token) table expr expr' here passed before after gains m m')
    (hexpr : ∀ p s, Orderly evidence s → Careful evidence s False (fun _ => True) (expr p s))
    (hs : Orderly evidence s) (hhere : ∀ u ∈ here, u = (s.current, s.current)) :
    Careful evidence s passed gains (m s) := by
  -- induction on the derivation; the second reader plays no part, so the values it would have are
  -- taken to be those of the first
  induction h generalizing s with
  | pure value progress => exact .stay hs progress
  | bind first second ih ih' =>
    exact .bind (ih hs hhere) fun a s' hs' =>
      ih' a a (Located.like_self (fun _ => rfl) a) hs' fun u hu => nomatch hu
  | peek next ih =>
    exact ih s.current s.current ⟨rfl, hs.current⟩ hhere hs fun u hu => (Option.some.inj hu).symm
  | advance =>
    refine .ok hs.tail (List.tail_suffix _) rfl fun hgains => hgains.imp_right ?_
    rintro ⟨u, hu, hkind⟩
    rw [hhere u hu] at hkind
    exact Careful.length_tail_lt hkind
  | openBracket opens =>
    cases hhere _ rfl
    exact .openBracket hs opens
  | closeBracket closer => exact .closeBracket hs closer
  | atFinalEnd => exact .stay hs id
  | throw token fault error => exact .fail hs (evidence.faults token.2 fault)
  | unexpected => exact .fail hs hs.unexpected
  | missing unmatched =>
    cases hhere _ rfl
    exact .fail hs (hs.faultAt (evidence.faults hs.current (.unmatched unmatched)))
  | @result _ _ _ _ _ _ _ _ _ x _ f _ _ _ token fault result next ih =>
    cases x with
    | error e => exact .fail hs (evidence.faults token.2 (fault e rfl))
    | ok a => exact ih a a (Located.like_self (fun _ => rfl) a) hs hhere
  | expr p => exact .trans (List.suffix_refl _) rfl (hexpr p s hs) False.elim fun _ => .inr
  | attempt step ih => exact .attempt hs (ih hs fun u hu => nomatch hu)
  | iterate first next ih ih' =>
    exact .iterate_of_first (ih hs hhere) fun b s' _ => .iterate (fun b s' hs' =>
      ih' b b (Located.like_self (fun _ => rfl) b) hs' fun u hu => nomatch hu) b
  | weaken step known less progress ih =>
    exact .trans (List.suffix_refl _) rfl (ih hs fun u hu => hhere u (known u hu))
      (fun hpassed => .inl (less hpassed)) fun a hgains => (progress a hgains).imp_left .inl

/-- A step that is parallel to itself is careful. -/
theorem Parallel.careful {m : Parse α}
    (h : Parallel (.only evidence.token) table expr (fun _ => expr) none passed 0 0 gains m
      (fun _ => m))
    (hexpr : ∀ p s, Orderly evidence s → Careful evidence s False (fun _ => True) (expr p s))
    (hs : Orderly evidence s) : Careful evidence s passed gains (m s) :=
  h.careful_here hexpr hs fun _ hu => nomatch hu

/-! ## Expressions and inputs -/

/-- A failure that is remembered has been justified when it arose. -/
theorem Careful.remember {step : Parse Expr} (p : Precedence) (h : Orderly evidence s)
    (hstep : Careful evidence s False (fun _ => True) (step s)) :
    Careful evidence s False (fun _ => True) (Parse.remember p step s) := by
  unfold Parse.remember
  split
  · -- the failure is one of those remembered
    rename_i e hlookup
    obtain ⟨before, after, hfailures, -⟩ := List.lookup_eq_some_iff.mp hlookup
    exact .fail h (h.failures (s.occasion p, e) (by simp [hfailures]))
  · revert hstep
    generalize step s = r
    rintro (⟨orderly, suffix, stop, progress⟩ | ⟨orderly, suffix, stop, justified⟩)
    · exact .ok orderly suffix stop progress
    · dsimp only
      split
      · -- the failure joins those remembered
        refine .error { orderly with failures := ?_ } suffix stop justified
        intro failure hfailure
        rcases List.mem_cons.mp hfailure with rfl | hfailure
        · exact justified
        · exact orderly.failures failure hfailure
      · exact .error orderly suffix stop justified

/-- Expressions are read with care. -/
theorem careful_expression (evidence : Evidence table) (room : Nat) (p : Precedence)
    (h : Orderly evidence s) :
    Careful evidence s False (fun _ => True) (expression table room p s) := by
  -- induction on the room, which is less for the parts of an expression
  induction room generalizing s p with
  | zero => exact .fail h (evidence.faults h.current .outOfRoom)
  | succ room ih =>
    exact .remember p h (Parallel.careful (parallel_chain p) (fun q s hs => ih q hs) h)

/-- So are the forms that extend an operand. -/
theorem careful_trailing (evidence : Evidence table) (room : Nat) (p : Precedence) (lhs : Expr)
    (h : Orderly evidence s) :
    Careful evidence s False (Gains table) (trailing table (expression table room) p lhs s) :=
  Parallel.careful (parallel_trailing p (Expr.like_self (fun _ => rfl) lhs))
    (fun q _ hs => careful_expression evidence room q hs) h

/-- So is each expression of an input. -/
theorem careful_programTurn (evidence : Evidence table) (room : Nat) (exprs : List Expr)
    (h : Orderly evidence s) :
    Careful evidence s False (Gains table) (programTurn (expression table room) exprs s) :=
  Parallel.careful (parallel_programTurn (Located.like_self (fun _ => rfl) exprs))
    (fun p _ hs => careful_expression evidence room p hs) h

/-- So is a whole input. -/
theorem careful_program (settings : Settings) {evidence : Evidence settings.table}
    (h : Orderly evidence s) :
    Careful evidence s False (fun _ => False) (program settings s) :=
  Careful.iterate (fun exprs _ hs => careful_programTurn evidence settings.limit exprs hs) [] h

end Symbolic.Reader
