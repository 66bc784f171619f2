import Symbolic.Proofs.Likeness.Data
import Symbolic.Proofs.Nesting.Brackets
import Symbolic.Proofs.Trees.Atom
import Symbolic.Reader.Program

/-!
# Two ways through the grammar side by side

Two readers that use the same rules, over tokens that mean the same, take the same steps. A
derivation of `Parallel` says so of two steps of theirs without running them: it is made the way
the steps are made, and each use of a token or of a value says what it relies on. What holds of
two such readers, or of one of them, is then proved by induction on the derivation, once for each
way in which steps are put together and not once for each rule of the grammar.

## Key results

- `Likeness`: what it means that tokens mean the same
- `Parallel`: derivations of steps that are the same but for locations
- `Parallel.map`, `Parallel.loop`, `Parallel.expect`: derived ways to put steps together
-/

namespace Symbolic

/-- What can be said to be wrong with a token. -/
inductive OperatorTable.Faults (table : OperatorTable) (t : Token) : SyntaxError → Prop where
  | unexpected : Faults table t (.unexpectedToken t.loc t.kind)
  | unmatched {expected : TokenKind} (h : t.kind ≠ expected) :
      Faults table t (.unmatchedDelimiter t.loc expected)
  | chained {op : Operator} (found : table.lookup? t.kind .infixed = some op)
      (associativity : op.associativity = .nonAssociative) :
      Faults table t (.nonAssociativeChain t.loc t.kind)
  | numeral (h : Expr.holdsNumber t.kind = true) : Faults table t (.invalidNumber t.loc)
  | outOfRoom : Faults table t (.recursionLimitExceeded t.loc)

namespace Reader

open Parse

/-- When two locations, and two tokens, are taken to be the same. Readers may look at the kinds of
    tokens, at the texts of atoms, and at how the operator of a pure function is spelled. -/
structure Likeness where
  location : Location → Location → Prop
  token : Token → Token → Prop
  union : ∀ {a a' b b' : Location}, location a a' → location b b' →
    location (a.union b) (a'.union b')
  empty_start : ∀ {a a' : Location}, location a a' → location (.empty a.start) (.empty a'.start)
  loc : ∀ {t t' : Token}, token t t' → location t.loc t'.loc
  kind_eq : ∀ {t t' : Token}, token t t' → t'.kind = t.kind
  text_eq : ∀ {t t' : Token}, token t t' → t.kind.isAtom = true → t'.text = t.text
  ampersand : ∀ {t t' : Token}, token t t' → t.kind = .function → (t'.text = "&" ↔ t.text = "&")

namespace Likeness

/-- Every token of a kind in question is like itself. -/
def only (P : Token → Prop) : Likeness where
  location := Eq
  token t t' := t = t' ∧ P t
  union := by
    rintro _ _ _ _ rfl rfl
    rfl
  empty_start := by
    rintro _ _ rfl
    rfl
  loc h := congrArg Token.loc h.1
  kind_eq h := congrArg Token.kind h.1.symm
  text_eq h _ := congrArg Token.text h.1.symm
  ampersand := by
    rintro _ _ ⟨rfl, -⟩ _
    exact Iff.rfl

theorem loc_eq_of_only {t t' : Token} (h : (only fun _ => True).token t t') : t.loc = t'.loc :=
  congrArg Token.loc h.1

end Likeness

/-- Whether a turn that goes on has to have passed over a token. It has to unless the table lets
    the end of the input follow an operand as an operator. -/
def Gains (table : OperatorTable) {α β : Type} : Turn α β → Prop
  | .again _ => table.lookup? .endOfInput .postfixed = none
  | .done _ => False

/-- The two steps do the same, where `expr` and every one of `expr'` do so. If the tokens before
    the readers are known, they are `here`; `before` and `after` count the brackets that have been
    opened since some place further back, and `passed` says whether a token has been passed over
    since then. A step that ends with a value of which `gains` holds has passed over one, too. -/
inductive Parallel (like : Likeness) (table : OperatorTable) (expr : Precedence → Parse Expr)
    (expr' : Nat → Precedence → Parse Expr) :
    {α : Type} → [Located α] → (here : Option (Token × Token)) → (passed : Prop) →
      (before after : Nat) → (gains : α → Prop) → Parse α → (Nat → Parse α) → Prop where
  | pure {α : Type} [Located α] {here : Option (Token × Token)} {passed : Prop} {depth : Nat}
      {gains : α → Prop} {a a' : α} (value : Located.Like like.location a a')
      (progress : gains a → passed) :
      Parallel like table expr expr' here passed depth depth gains (pure a) (fun _ => pure a')
  | bind {α β : Type} [Located α] [Located β] {here : Option (Token × Token)} {passed : Prop}
      {before between after : Nat} {middle : α → Prop} {gains : β → Prop} {m : Parse α}
      {m' : Nat → Parse α} {f : α → Parse β} {f' : Nat → α → Parse β}
      (first : Parallel like table expr expr' here passed before between middle m m')
      (second : ∀ a a', Located.Like like.location a a' →
        Parallel like table expr expr' none (middle a) between after gains (f a)
          (fun n => f' n a')) :
      Parallel like table expr expr' here passed before after gains (m >>= f)
        (fun n => m' n >>= f' n)
  /-- Looking at the next tokens, which are then known. -/
  | peek {α : Type} [Located α] {here : Option (Token × Token)} {passed : Prop}
      {before after : Nat} {gains : α → Prop} {f : Token → Parse α} {f' : Nat → Token → Parse α}
      (next : ∀ t t', like.token t t' → (∀ u ∈ here, u = (t, t')) →
        Parallel like table expr expr' (some (t, t')) passed before after gains (f t)
          (fun n => f' n t')) :
      Parallel like table expr expr' here passed before after gains (peek >>= f)
        (fun n => peek >>= f' n)
  /-- Passing over a token, unless it is the end of the input. -/
  | advance {here : Option (Token × Token)} {passed : Prop} {depth : Nat} :
      Parallel like table expr expr' here passed depth depth
        (fun _ => passed ∨ ∃ u ∈ here, u.1.kind ≠ .endOfInput) advance (fun _ => advance)
  | openBracket {t t' : Token} {passed : Prop} {depth : Nat} (opens : t.kind.closer?.isSome) :
      Parallel like table expr expr' (some (t, t')) passed depth (depth + 1) (fun _ => True)
        openBracket (fun _ => openBracket)
  | closeBracket {here : Option (Token × Token)} {passed : Prop} {depth : Nat}
      (closer : TokenKind) :
      Parallel like table expr expr' here passed (depth + 1) depth (fun _ => passed)
        (closeBracket closer) (fun _ => closeBracket closer)
  | atFinalEnd {here : Option (Token × Token)} {passed : Prop} {depth : Nat} :
      Parallel like table expr expr' here passed depth depth (fun _ => passed) atFinalEnd
        (fun _ => atFinalEnd)
  /-- An error about a token that has been looked at. -/
  | throw {α : Type} [Located α] {here : Option (Token × Token)} {passed : Prop}
      {before after : Nat} {gains : α → Prop} {t t' : Token} {e e' : SyntaxError}
      (token : like.token t t') (fault : table.Faults t e)
      (error : SyntaxError.Like like.location e e') :
      Parallel like table expr expr' here passed before after gains (throw e) (fun _ => throw e')
  | unexpected {α : Type} [Located α] {here : Option (Token × Token)} {passed : Prop}
      {before after : Nat} {gains : α → Prop} :
      Parallel like table expr expr' here passed before after gains unexpected
        (fun _ => unexpected)
  | missing {α : Type} [Located α] {t t' : Token} {passed : Prop} {before after : Nat}
      {gains : α → Prop} {expected : TokenKind} (unmatched : t.kind ≠ expected) :
      Parallel like table expr expr' (some (t, t')) passed before after gains (missing expected)
        (fun _ => missing expected)
  /-- The value of a token that has been looked at, if it has one. -/
  | result {α β : Type} [Located α] [Located β] {here : Option (Token × Token)} {passed : Prop}
      {before after : Nat} {gains : β → Prop} {x x' : Except SyntaxError α} {f : α → Parse β}
      {f' : Nat → α → Parse β} {t t' : Token} (token : like.token t t')
      (fault : ∀ e, x = .error e → table.Faults t e) (result : LikeResult like.location x x')
      (next : ∀ a a', Located.Like like.location a a' →
        Parallel like table expr expr' here passed before after gains (f a) (fun n => f' n a')) :
      Parallel like table expr expr' here passed before after gains (ofResult x >>= f)
        (fun n => ofResult x' >>= f' n)
  | expr {here : Option (Token × Token)} {passed : Prop} {depth : Nat} (p : Precedence) :
      Parallel like table expr expr' here passed depth depth (fun _ => True) (expr p)
        (fun n => expr' n p)
  /-- An attempt forgets what was passed over, and closes all that it opens. -/
  | attempt {α : Type} [Located α] {here : Option (Token × Token)} {passed : Prop} {depth : Nat}
      {gains : α → Prop} {m : Parse α} {m' : Nat → Parse α}
      (step : Parallel like table expr expr' none False 0 0 gains m m') :
      Parallel like table expr expr' here passed depth depth (fun _ => passed) m.attempt
        (fun n => (m' n).attempt)
  /-- A loop gains what its first turn gains. Any turn after that may start anywhere. -/
  | iterate {α β : Type} [Located α] [Located β] {here : Option (Token × Token)} {passed : Prop}
      {depth : Nat} {gains : β → Prop} {moves : Turn α β → Prop} {turn : α → Parse (Turn α β)}
      {turn' : Nat → α → Parse (Turn α β)} {a a' : α}
      (first : Parallel like table expr expr' here passed depth depth
        (fun | .again _ => False | .done b => gains b) (turn a) (fun n => turn' n a'))
      (next : ∀ b b', Located.Like like.location b b' →
        Parallel like table expr expr' none False depth depth moves (turn b)
          (fun n => turn' n b')) :
      Parallel like table expr expr' here passed depth depth gains (iterate turn a)
        (fun n => iterate (turn' n) a')
  /-- Less can be known of where a step starts, and more can have been passed over before it. -/
  | weaken {α : Type} [Located α] {here here' : Option (Token × Token)} {passed passed' : Prop}
      {before after : Nat} {gains gains' : α → Prop} {m : Parse α} {m' : Nat → Parse α}
      (step : Parallel like table expr expr' here' passed' before after gains' m m')
      (known : ∀ u ∈ here', u ∈ here) (less : passed' → passed)
      (progress : ∀ a, gains a → passed ∨ gains' a) :
      Parallel like table expr expr' here passed before after gains m m'

namespace Parallel

variable {like : Likeness} {table : OperatorTable} {expr : Precedence → Parse Expr}
  {expr' : Nat → Precedence → Parse Expr} {α β : Type} [Located α] [Located β]
  {here : Option (Token × Token)} {passed : Prop} {before after depth : Nat} {gains : β → Prop}
  {t t' : Token}

/-- What a step gains, it gains on top of what has been passed over before. -/
theorem frame {gains' : β → Prop} {m : Parse β} {m' : Nat → Parse β}
    (step : Parallel like table expr expr' none False before after gains' m m')
    (progress : ∀ b, gains b → passed ∨ gains' b) :
    Parallel like table expr expr' here passed before after gains m m' :=
  .weaken step (fun _ h => nomatch h) False.elim progress

theorem imp {gains' : β → Prop} {m : Parse β} {m' : Nat → Parse β}
    (step : Parallel like table expr expr' here passed before after gains' m m')
    (progress : ∀ b, gains b → gains' b) :
    Parallel like table expr expr' here passed before after gains m m' :=
  .weaken step (fun _ => id) id fun b h => .inr (progress b h)

/-- Where the tokens are known, these are the ones looked at. -/
theorem peek_here {f : Token → Parse β} {f' : Nat → Token → Parse β}
    (next : like.token t t' → Parallel like table expr expr' (some (t, t')) passed before after
      gains (f t) (fun n => f' n t')) :
    Parallel like table expr expr' (some (t, t')) passed before after gains (Parse.peek >>= f)
      (fun n => Parse.peek >>= f' n) := by
  refine .peek fun u u' hu hhere => ?_
  obtain ⟨rfl, rfl⟩ := Prod.mk.inj (hhere (t, t') rfl)
  exact next hu

theorem map {middle : α → Prop} {m : Parse α} {m' : Nat → Parse α} {g g' : α → β}
    (first : Parallel like table expr expr' here passed before after middle m m')
    (value : ∀ a a', Located.Like like.location a a' → Located.Like like.location (g a) (g' a'))
    (progress : ∀ a, gains (g a) → middle a) :
    Parallel like table expr expr' here passed before after gains (g <$> m)
      (fun n => g' <$> m' n) := by
  simp only [map_eq_pure_bind]
  exact first.bind fun a a' h => .pure (value a a' h) (progress a)

omit [Located α] in
/-- What would come after an error does not matter. -/
theorem throw_bind {f : α → Parse β} {f' : Nat → α → Parse β} {e e' : SyntaxError}
    (token : like.token t t') (fault : table.Faults t e)
    (error : SyntaxError.Like like.location e e') :
    Parallel like table expr expr' here passed before after gains (MonadExcept.throw e >>= f)
      (fun n => MonadExcept.throw e' >>= f' n) :=
  .throw token fault error

/-- A loop gains nothing that its first turn does not. -/
theorem loop {moves : Turn α β → Prop} {turn : α → Parse (Turn α β)}
    {turn' : Nat → α → Parse (Turn α β)} {a a' : α}
    (next : ∀ b b', Located.Like like.location b b' →
      Parallel like table expr expr' none False depth depth moves (turn b) (fun n => turn' n b'))
    (h : Located.Like like.location a a') :
    Parallel like table expr expr' here passed depth depth (fun _ => passed)
      (Parse.iterate turn a) (fun n => Parse.iterate (turn' n) a') := by
  refine .iterate (.frame (next a a' h) fun outcome hgains => ?_) next
  cases outcome with
  | again => exact hgains.elim
  | done => exact .inl hgains

/-- Passing over a delimiter is looking for it first. -/
theorem expect (kind : TokenKind) :
    Parallel like table expr expr' here passed depth depth (fun _ => passed) (Parse.expect kind)
      (fun _ => Parse.expect kind) := by
  unfold Parse.expect
  refine .peek fun t t' ht _ => ?_
  rw [like.kind_eq ht]
  split
  · exact .imp .advance fun _ => .inl
  · rename_i h
    exact .missing h

end Parallel

end Reader

end Symbolic
