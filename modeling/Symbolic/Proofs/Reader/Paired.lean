import Symbolic.Proofs.Nesting.Brackets
import Symbolic.Proofs.Reader.Forgetful
import Symbolic.Proofs.Trees.Atom

/-!
# Pairs of readers with the same rules

Two ways of reading expressions give rise to two readers, which take the same steps as long as
they see the same tokens. A pair of steps is put together from such pairs in the way of the rules:
a bracket is closed only by the step that opened it, a token is passed over only once it has been
looked at, and an error of a rule's own is about a token, never about the end of the input. What
the one reader does at the end of its input, with all brackets closed, the other does before a
comma or a closing bracket as well.

## Key results

- `Paired`: pairs of steps, with the place where they start and the brackets they open and close
- `EndsAlike`: what two steps have in common where an element ends
-/

namespace Symbolic

/-! ## Kinds of tokens -/

/-- Whether a kind of token can be passed over wherever it stands: it is neither a bracket nor the
    end of the input. -/
def TokenKind.isPlain (kind : TokenKind) : Bool :=
  kind.balance == 0 && kind != .endOfInput

/-- The kinds of token that an element of a sequence can end before. -/
def elementEnds : List TokenKind :=
  [.comma, .rightParen, .rightBracket, .rightBrace, .rightAssociation]

namespace Reader

open Parse

variable {α β : Type}

/-! ## Where steps start and end -/

/-- The brackets that have been opened, each with the token that closes it: those that the reader
    keeps track of, and second brackets of parts. -/
inductive Level where
  | zero
  | opened (level : Level) (closer : TokenKind)
  | openedInner (level : Level) (closer : TokenKind)

namespace Level

/-- How many of the brackets the reader keeps track of. -/
def brackets : Level → Nat
  | .zero => 0
  | .opened level _ => level.brackets + 1
  | .openedInner level _ => level.brackets

/-- How many brackets have been opened. -/
def total : Level → Nat
  | .zero => 0
  | .opened level _ => level.total + 1
  | .openedInner level _ => level.total + 1

/-- Nothing is open at first. -/
@[simp] theorem brackets_zero : Level.zero.brackets = 0 := rfl

/-- One more bracket is on the stack. -/
@[simp] theorem brackets_opened (level : Level) (closer : TokenKind) :
    (level.opened closer).brackets = level.brackets + 1 := rfl

/-- The second bracket of a pair is not put on the stack. -/
@[simp] theorem brackets_openedInner (level : Level) (closer : TokenKind) :
    (level.openedInner closer).brackets = level.brackets := rfl

/-- Nothing has to be closed at first. -/
@[simp] theorem total_zero : Level.zero.total = 0 := rfl

/-- One more bracket has to be closed. -/
@[simp] theorem total_opened (level : Level) (closer : TokenKind) :
    (level.opened closer).total = level.total + 1 := rfl

/-- So it is for the second bracket of a pair. -/
@[simp] theorem total_openedInner (level : Level) (closer : TokenKind) :
    (level.openedInner closer).total = level.total + 1 := rfl

/-- Something is open behind an opening bracket. -/
theorem opened_ne_zero (level : Level) (closer : TokenKind) : level.opened closer ≠ .zero :=
  nofun

/-- So it is behind the second bracket of a pair. -/
theorem openedInner_ne_zero (level : Level) (closer : TokenKind) :
    level.openedInner closer ≠ .zero :=
  nofun

/-- Nothing is open if nothing has to be closed. -/
theorem eq_zero_of_total {level : Level} (h : level.total = 0) : level = .zero := by
  cases level with
  | zero => rfl
  | opened level closer => cases h
  | openedInner level closer => cases h

/-- Each bracket on the stack has to be closed. -/
theorem brackets_le_total (level : Level) : level.brackets ≤ level.total := by
  induction level with
  | zero => exact Nat.le_refl 0
  | opened level closer ih => exact Nat.succ_le_succ ih
  | openedInner level closer ih => exact Nat.le_succ_of_le ih

end Level

/-- What is known of the place where a step starts. -/
inductive Place where
  | anywhere
  /-- Unless a bracket is open, this is not the end of the input. -/
  | notFinal
  | at (kind : TokenKind)

namespace Place

/-- Whether the state is at such a place. -/
def Holds (s : State) : Place → Prop
  | .anywhere => True
  | .notFinal => s.current.kind = .endOfInput → s.brackets ≠ []
  | .at kind => s.current.kind = kind

/-- Whether such a place can be the end of the input without open brackets. -/
def MayEnd : Place → Prop
  | .anywhere => True
  | .notFinal => False
  | .at kind => kind = .endOfInput

/-- Whether a token of such a kind can stand there. -/
def Allows (found : TokenKind) : Place → Prop
  | .at kind => found = kind
  | _ => True

/-- A place allows the token that is there. -/
theorem allows_of_holds {s : State} : ∀ {place : Place}, place.Holds s → place.Allows s.current.kind
  | .anywhere, _ | .notFinal, _ => trivial
  | .at _, h => h

end Place

/-! ## The end of the input and the end of an element -/

/-- No expression can be read here. -/
def Barred (expr : Precedence → Parse Expr) (t : State) : Prop :=
  ∀ p, ∃ e, e.isRecoverable = true ∧ expr p t = .error e t

/-- At the end of the input, with all brackets closed, the first step does no more than to give a
    value or to fail. So do the others where an element ends, if no expression can be read there. -/
def EndsAlike (expr' : Nat → Precedence → Parse Expr) (m : Parse α) (run : Nat → Parse α) : Prop :=
  ∀ s t : State, s.current.kind = .endOfInput → s.brackets = [] → t.current.kind ∈ elementEnds →
    (∃ v, m s = .ok v s ∧ ∀ room, Barred (expr' room) t → run room t = .ok v t) ∨
      ∃ e e', e.isRecoverable = true ∧ e'.isRecoverable = true ∧ m s = .error e s ∧
        ∀ room, run room t = .error e' t

/-! ## Pairs of steps -/

/-- Gives a value for the operand that starts at `first`. A rule that is `strict` refuses any
    operand but a symbol. -/
def symbolOnly (strict : Bool) (first : Token) (operand : Expr) (v : α) : Parse α :=
  if strict && operand.symbolName?.isNone then
    throw (.unexpectedToken first.loc first.kind) >>= fun _ : PUnit => pure v
  else pure v

/-- A step over one way of reading expressions, and the same step over another one with any room
    for nesting. -/
inductive Paired (expr : Precedence → Parse Expr) (expr' : Nat → Precedence → Parse Expr) :
    {α : Type} → Place → Level → Level → Parse α → (Nat → Parse α) → Prop where
  | pure {α : Type} {place : Place} {level : Level} (a : α) :
      Paired expr expr' place level level (pure a) fun _ => pure a
  | bind {α β : Type} {place : Place} {before between after : Level} {m : Parse α}
      {run : Nat → Parse α} {f : α → Parse β} {next : Nat → α → Parse β}
      (first : Paired expr expr' place before between m run)
      (then_ : ∀ a, Paired expr expr' .anywhere between after (f a) fun room => next room a) :
      Paired expr expr' place before after (m >>= f) fun room => run room >>= next room
  /-- Looking at the next token. -/
  | peek {β : Type} {place : Place} {before after : Level} {f : Token → Parse β}
      {next : Nat → Token → Parse β}
      (then_ : ∀ t, place.Allows t.kind →
        Paired expr expr' (.at t.kind) before after (f t) fun room => next room t)
      (ends : place.MayEnd → before = .zero → ∀ t t', t.kind = .endOfInput →
        t'.kind ∈ elementEnds → EndsAlike expr' (f t) fun room => next room t') :
      Paired expr expr' place before after (peek >>= f) fun room => peek >>= next room
  | advance {kind : TokenKind} {level : Level} (plain : kind.isPlain = true) :
      Paired expr expr' (.at kind) level level advance fun _ => advance
  | openBracket {kind closer : TokenKind} {level : Level} (opens : kind.closer? = some closer) :
      Paired expr expr' (.at kind) level (level.opened closer) openBracket fun _ => openBracket
  | openInner {kind closer : TokenKind} {level : Level} (opens : kind.closer? = some closer) :
      Paired expr expr' (.at kind) level (level.openedInner closer) advance fun _ => advance
  | expect {place : Place} {level : Level} {kind : TokenKind} (plain : kind.isPlain = true)
      (notEnd : kind ∉ elementEnds) :
      Paired expr expr' place level level (expect kind) fun _ => expect kind
  | closeInner {place : Place} {level : Level} {kind : TokenKind} (closes : kind.balance = 1) :
      Paired expr expr' place (level.openedInner kind) level (Parse.expect kind) fun _ =>
        Parse.expect kind
  | closeBracket {place : Place} {level : Level} {kind : TokenKind} (closes : kind.balance = 1) :
      Paired expr expr' place (level.opened kind) level (closeBracket kind) fun _ =>
        closeBracket kind
  | unexpected {α : Type} {place : Place} {before after : Level} :
      Paired expr expr' (α := α) place before after unexpected fun _ => unexpected
  | missing {α : Type} {place : Place} {before after : Level} (kind : TokenKind) :
      Paired expr expr' (α := α) place before after (missing kind) fun _ => missing kind
  /-- An error about the token that stands here. -/
  | throw {α : Type} {kind : TokenKind} {before after : Level} {e : SyntaxError}
      (notEnd : kind ≠ .endOfInput) (aboutToken : e.isAboutToken = true) :
      Paired expr expr' (α := α) (.at kind) before after (throw e) fun _ => throw e
  /-- The value of the token that stands here, if it has one. -/
  | ofResult {α β : Type} {kind : TokenKind} {before after : Level}
      {result : Except SyntaxError α} {f : α → Parse β} {next : Nat → α → Parse β}
      (notEnd : kind ≠ .endOfInput)
      (aboutToken : ∀ e, result = .error e → e.isAboutToken = true)
      (then_ : ∀ a, Paired expr expr' (.at kind) before after (f a) fun room => next room a) :
      Paired expr expr' (.at kind) before after (ofResult result >>= f) fun room =>
        ofResult result >>= next room
  | expr {place : Place} {level : Level} (p : Precedence) :
      Paired expr expr' place level level (expr p) fun room => expr' room p
  | attempt {place : Place} (p : Precedence) :
      Paired expr expr' place .zero .zero (expr p).attempt fun room => (expr' room p).attempt
  /-- An attempt at what stands after an operator. -/
  | attemptAfter {kind : TokenKind} (plain : kind.isPlain = true) (p : Precedence) :
      Paired expr expr' (.at kind) .zero .zero (Parse.advance >>= fun _ => expr p).attempt
        fun room => (Parse.advance >>= fun _ => expr' room p).attempt
  | iterate {α β : Type} {place : Place} {level : Level} {turn : α → Parse (Turn α β)}
      {turns : Nat → α → Parse (Turn α β)}
      (each : ∀ a, Paired expr expr' .anywhere level level (turn a) fun room => turns room a)
      (a : α) : Paired expr expr' place level level (iterate turn a) fun room =>
        iterate (turns room) a
  /-- A step that asks whether the input ends here. -/
  | atFinalEnd {β : Type} {before after : Level} {f : Bool → Parse β}
      {next : Nat → Bool → Parse β}
      (onEnd : Paired expr expr' .anywhere before after (f true) fun room => next room true)
      (otherwise : Paired expr expr' .notFinal before after (f false) fun room => next room false)
      (ends : EndsAlike expr' (f true) fun room => next room false) :
      Paired expr expr' .anywhere before after (atFinalEnd >>= f) fun room =>
        atFinalEnd >>= next room
  /-- An operand that has to be a symbol, if the rule is `strict`. The rule sees what it is only
      once it has been read. -/
  | symbolOperand {α : Type} {place : Place} (p : Precedence) (strict : Bool) (g : Expr → α) :
      Paired expr expr' place .zero .zero
        (Parse.peek >>= fun first => expr p >>= fun operand =>
          symbolOnly strict first operand (g operand))
        fun room => Parse.peek >>= fun first => expr' room p >>= fun operand =>
          symbolOnly strict first operand (g operand)

/-- A mapped step. -/
theorem Paired.map {expr : Precedence → Parse Expr} {expr' : Nat → Precedence → Parse Expr}
    {place : Place} {before after : Level} {m : Parse α} {run : Nat → Parse α} (g : α → β)
    (h : Paired expr expr' place before after m run) :
    Paired expr expr' place before after (g <$> m) fun room => g <$> run room := by
  simp only [map_eq_pure_bind]
  exact h.bind fun a => .pure _

end Reader

end Symbolic
