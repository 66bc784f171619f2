import Symbolic.Proofs.Likeness.Abreast
import Symbolic.Proofs.Reader.Room
import Symbolic.Proofs.Reader.Success

/-!
# Places and spellings decide nothing

Where the tokens stand goes into every node, into the brackets that are open and into what a reader
remembers failures by, and yet it decides nothing; nor does how operators are spelled. Tokens of
the same kinds, with the same texts where these are atoms, are read as trees that differ in nothing
but locations, or fail with errors that do.

A reader with memory takes some of its failures from other occasions that look the same. So it is
first put next to a reader without memory over the same tokens, in as much room as is needed, and
only readers without memory are then put side by side over different tokens.

## Key results

- `keepsUp_forgetful`: without memory, and with enough room, a reader ends as one with memory does
- `SameShape`: what of a token counts
- `eraseOutcome_readTokens_eq`: only that counts
-/

namespace Symbolic.Reader

open Parse Filter

variable {table : OperatorTable} {tokens tokens' : List Token} {stop : Location}

/-! ## Readers with and without memory -/

/-- The two readers are at the same place within the same brackets. The first remembers what is
    so, and the second remembers nothing. -/
def memoryStage (table : OperatorTable) (tokens : List Token) (stop : Location) : Stage where
  like := .only fun _ => True
  bracket := Eq
  tokens := tokens
  stop := stop
  stop' := stop
  around := Eq
  known failures failures' := Recorded table tokens stop failures ∧ failures' = []
  stops := ⟨rfl, trivial⟩
  head?_like := by
    rintro outer _ rfl
    exact Located.like_self (fun _ => rfl) _
  opens := @Likeness.loc_eq_of_only
  cons := by
    rintro _ _ _ _ rfl rfl
    rfl

/-- Two readers on this stage differ in nothing but what they remember. -/
theorem Abreast.eq_of_memoryStage {depth : Nat} {outer : List Location} {s t : State}
    (h : Abreast (memoryStage table tokens stop) depth outer outer s t) :
    t = { s with failures := [] } := by
  obtain ⟨rest, -, hstop, hstop', opened, -, hnone⟩ := h
  obtain ⟨inner, inner', hinner, -, hbrackets, hbrackets'⟩ := opened
  have hrest : s.rest = t.rest := by
    refine List.forall₂_eq_eq_eq ▸ rest.imp fun _ _ h => h.1
  obtain rfl : inner = inner' := List.forall₂_eq_eq_eq ▸ hinner
  cases s
  cases t
  simp_all [memoryStage]

/-- What a reader without memory fails with in some room, it fails with in all that is larger. -/
theorem eventually_error {room : Nat} {p : Precedence} {t t₀ : State} {e : SyntaxError}
    (suffix : t.rest <:+ tokens) (hstop : t.stop = stop) (hnone : t.failures = [])
    (he : e.isRecoverable = true) (h : Forgetful.expression table room p t = .error e t₀) :
    ∀ᶠ n in atTop, ∃ t', Forgetful.expression table n p t = .error e t' ∧ t'.stop = stop ∧
      t.brackets <:+ t'.brackets ∧ t'.failures = [] := by
  filter_upwards [eventually_ge_atTop room] with n hle
  have halike : Alike (.innermost tokens stop (· = [])) [] t.brackets t.brackets t t :=
    ⟨rfl, suffix, hstop, hstop, rfl, rfl, hnone⟩
  have hmeets := (follows_forgetful table hle p).meets rfl rfl halike
  rw [h] at hmeets
  revert hmeets
  generalize Forgetful.expression table n p t = r
  rintro (_ | ⟨-, hstop', -, hbrackets', hknown⟩ | hfinal)
  · exact ⟨_, rfl, hstop', ⟨_, hbrackets'.symm⟩, hknown⟩
  · simp [hfinal] at he

/-- Reading an expression takes one more level than reading its parts. -/
theorem Agrees.succ {α : Type} [Located α] {stage : Stage} {outer outer' : List Location}
    {depth : Nat} {r : EStateM.Result SyntaxError State α}
    {r' : Nat → EStateM.Result SyntaxError State α}
    (h : Agrees stage outer outer' depth r (fun n => r' (n + 1))) :
    Agrees stage outer outer' depth r r' := by
  have hshift : ∀ {P : Nat → Prop}, (∀ᶠ n in atTop, P (n + 1)) → ∀ᶠ n in atTop, P n := by
    intro P hP
    rwa [← map_add_atTop_eq_nat 1, eventually_map]
  cases h with
  | ok value abreast eventually => exact .ok value abreast (hshift eventually)
  | error error stop brackets known eventually =>
    exact .error error stop brackets known (hshift eventually)
  | final h => exact .final h

/-- Where one reader looks into its memory, the other reads again and ends in the same way. -/
theorem keepsUp_remember {p : Precedence} {step : Parse Expr}
    (h : KeepsUp (memoryStage table tokens stop) step
      (fun n => chain table (Forgetful.expression table n) p)) :
    KeepsUp (memoryStage table tokens stop) (remember p step)
      (fun n => Forgetful.expression table n p) := by
  refine ⟨fun {outer outer' s t} haround habreast => ?_⟩
  obtain rfl : outer = outer' := haround
  have ht := habreast.eq_of_memoryStage
  have hsuffix : t.rest <:+ tokens := ht ▸ habreast.suffix
  unfold remember
  split
  · -- the failure that is remembered
    rename_i e hlookup
    obtain ⟨he, hfails⟩ := habreast.known.1 _ _ (mem_of_lookup hlookup)
    obtain ⟨room, t₀, h₀⟩ := hfails t hsuffix habreast.stop' (ht ▸ rfl)
    have heventually := eventually_error hsuffix habreast.stop' habreast.known.2 he h₀
    refine .error (Located.like_self (fun _ => rfl) e) habreast.stop habreast.brackets.1
      habreast.known (heventually.mono ?_)
    rintro n ⟨t', ht', hstop, hbrackets, hnone⟩
    exact ⟨t', ht', hstop, habreast.brackets.2.trans hbrackets, hnone.trans habreast.known.2.symm⟩
  · have hstep : Agrees (memoryStage table tokens stop) outer outer 0 (step s)
        (fun n => Forgetful.expression table n p t) := (h.agrees rfl habreast).succ
    revert hstep
    generalize step s = r
    rintro (⟨value, abreast, eventually⟩ |
      @⟨e, e', s', failures', _, error, hstop, brackets, known, eventually⟩ | hfinal)
    · exact .ok value abreast eventually
    · dsimp only
      split
      · -- what goes on record is what the reader without memory fails with
        rename_i he
        obtain rfl := SyntaxError.eq_of_like error
        obtain ⟨room, t', ht', -⟩ := eventually.exists
        have hoccasion : t.occasion p = s.occasion p := ht ▸ rfl
        refine .error error hstop brackets ⟨?_, known.2⟩ eventually
        exact hoccasion ▸ recorded_cons known.1 hsuffix habreast.stop' he ht'
      · exact .error error hstop brackets known eventually
    · -- running out of room is never remembered
      simp only [hfinal, Bool.false_eq_true, if_false]
      exact .final hfinal

theorem keepsUp_forgetful (room : Nat) (p : Precedence) :
    KeepsUp (memoryStage table tokens stop) (expression table room p)
      (fun n => Forgetful.expression table n p) := by
  induction room generalizing p with
  | zero => exact ⟨fun _ _ => .final rfl⟩
  | succ room ih => exact keepsUp_remember (keepsUp_chain ih p)

theorem isRecoverable_of_roomy {result : Except SyntaxError (Option Expr)}
    (h : ∀ loc, result ≠ .error (.recursionLimitExceeded loc)) (e : SyntaxError)
    (he : result = .error e) : e.isRecoverable = true :=
  isRecoverable_of_ne fun loc hloc => h loc (hloc ▸ he)

/-- What a reader ends with, one without memory ends with, too, given enough room. -/
theorem eventually_forgetful_readTokens {limit : Nat}
    (h : ∀ loc, readTokens ⟨table, limit⟩ tokens ≠ .error (.recursionLimitExceeded loc)) :
    ∀ᶠ n in atTop, Forgetful.readTokens ⟨table, n⟩ tokens = readTokens ⟨table, limit⟩ tokens := by
  have hresult := isRecoverable_of_roomy h
  -- both start before the same tokens, with nothing remembered and nothing open
  have habreast : Abreast (memoryStage table (State.ofTokens tokens).rest
      (State.ofTokens tokens).stop) 0 [] [] (.ofTokens tokens) (.ofTokens tokens) :=
    { rest := List.forall₂_same.mpr fun _ _ => ⟨rfl, trivial⟩
      suffix := List.suffix_refl _
      stop := rfl
      stop' := rfl
      opened := ⟨[], [], .nil, rfl, rfl, rfl⟩
      known := ⟨recorded_nil, rfl⟩ }
  have hexpr (p : Precedence) : KeepsUp (memoryStage table (State.ofTokens tokens).rest
      (State.ofTokens tokens).stop) (expression table limit p)
        (fun n => Forgetful.expression table n p) :=
    keepsUp_forgetful limit p
  have hagrees := (keepsUp_program hexpr).agrees rfl habreast
  unfold readTokens run program at hresult ⊢
  unfold Forgetful.readTokens Forgetful.program
  revert hagrees hresult
  generalize iterate (programTurn (expression table limit)) [] _ = r
  -- over the same tokens, like values and like errors are the same
  rintro hresult (⟨value, -, eventually⟩ | ⟨error, -, -, -, eventually⟩ | hfinal)
  · filter_upwards [eventually] with n hn
    rw [show iterate (programTurn (Forgetful.expression table n)) [] _ = _ from hn,
      Located.eq_of_like value]
  · filter_upwards [eventually]
    rintro n ⟨t, hn, -⟩
    rw [show iterate (programTurn (Forgetful.expression table n)) [] _ = _ from hn,
      SyntaxError.eq_of_like error]
  · exact absurd (hresult _ rfl) (by simp [hfinal])

/-! ## Tokens of the same shape -/

/-- What of a token counts: its kind, the text of an atom, and whether the operator of a pure
    function is spelled as an ampersand. -/
structure SameShape (t t' : Token) : Prop where
  kind_eq : t'.kind = t.kind
  text_eq : t.kind.isAtom = true → t'.text = t.text
  ampersand : t.kind = .function → (t'.text = "&" ↔ t.text = "&")

/-- Any two locations are the same, and so are any two tokens of the same shape. -/
def Likeness.shape : Likeness where
  location _ _ := True
  token := SameShape
  union _ _ := trivial
  empty_start _ := trivial
  loc _ := trivial
  kind_eq := SameShape.kind_eq
  text_eq := SameShape.text_eq
  ampersand := SameShape.ampersand

/-- The two readers are at the same place within as many brackets, and remember nothing. -/
def shapeStage (tokens : List Token) (stop stop' : Location) : Stage where
  like := .shape
  bracket _ _ := True
  tokens := tokens
  stop := stop
  stop' := stop'
  around := List.Forall₂ fun _ _ => True
  known failures failures' := failures = [] ∧ failures' = []
  stops := ⟨rfl, fun h => (nomatch h), fun h => (nomatch h)⟩
  head?_like h := by
    cases h with
    | nil => exact .none
    | cons => exact .some trivial
  opens _ := trivial
  cons _ h := .cons trivial h

/-- Without memory, two readers with the same room stay abreast on any stage. -/
theorem keepsUp_forgetful_self (stage : Stage) (room : Nat) (p : Precedence) :
    KeepsUp stage (Forgetful.expression table room p)
      (fun _ => Forgetful.expression table room p) := by
  induction room generalizing p with
  | zero => exact ⟨fun _ _ => .final rfl⟩
  | succ room ih => exact keepsUp_chain ih p

theorem forall₂_takeWhile {R : Token → Token → Prop}
    (hkind : ∀ {t t' : Token}, R t t' → t'.kind = t.kind) (h : List.Forall₂ R tokens tokens') :
    List.Forall₂ R (tokens.takeWhile (·.kind != .endOfInput))
      (tokens'.takeWhile (·.kind != .endOfInput)) := by
  induction h with
  | nil => exact .nil
  | cons ht _ ih =>
    rw [List.takeWhile_cons, List.takeWhile_cons, hkind ht]
    split
    · exact .cons ht ih
    · exact .nil

/-- The value or the error of a step, wherever it leaves the reader. -/
def outcome {α : Type} : EStateM.Result SyntaxError State α → Except SyntaxError α
  | .ok a _ => .ok a
  | .error e _ => .error e

theorem readTokens_eq_outcome (settings : Settings) (tokens : List Token) :
    readTokens settings tokens = outcome (program settings (.ofTokens tokens)) := by
  unfold readTokens run
  cases program settings (.ofTokens tokens) <;> rfl

theorem Forgetful.readTokens_eq_outcome (settings : Settings) (tokens : List Token) :
    Forgetful.readTokens settings tokens =
      outcome (Forgetful.program settings (.ofTokens tokens)) := by
  unfold Forgetful.readTokens
  cases Forgetful.program settings (.ofTokens tokens) <;> rfl

/-- Readers that keep up with each other in the same room end alike, unless the first runs out
    of it. -/
theorem KeepsUp.like_outcome {α : Type} [Located α] {stage : Stage} {m m' : Parse α}
    (h : KeepsUp stage m fun _ => m') {outer outer' : List Location} {s t : State}
    (haround : stage.around outer outer') (habreast : Abreast stage 0 outer outer' s t)
    (hresult : ∀ e, outcome (m s) = .error e → e.isRecoverable = true) :
    LikeResult stage.like.location (outcome (m s)) (outcome (m' t)) := by
  have hagrees := h.agrees haround habreast
  revert hagrees hresult
  generalize m s = r, m' t = r'
  rintro hresult (⟨value, -, eventually⟩ | ⟨error, -, -, -, eventually⟩ | hfinal)
  · rw [eventually_const.mp eventually]
    exact .ok value
  · obtain ⟨t, ht, -⟩ := eventually_const.mp eventually
    rw [ht]
    exact .error error
  · exact absurd (hresult _ rfl) (by simp [hfinal])

/-- Readers without memory end alike over tokens of the same shape, unless they run out of room. -/
theorem like_forgetful_readTokens {settings : Settings} (h : List.Forall₂ SameShape tokens tokens')
    (hresult : ∀ e, Forgetful.readTokens settings tokens = .error e → e.isRecoverable = true) :
    LikeResult (fun _ _ => True) (Forgetful.readTokens settings tokens)
      (Forgetful.readTokens settings tokens') := by
  -- both start before tokens of the same shape, with nothing open
  have habreast : Abreast (shapeStage (State.ofTokens tokens).rest (State.ofTokens tokens).stop
      (State.ofTokens tokens').stop) 0 [] [] (.ofTokens tokens) (.ofTokens tokens') :=
    { rest := forall₂_takeWhile SameShape.kind_eq h
      suffix := List.suffix_refl _
      stop := rfl
      stop' := rfl
      opened := ⟨[], [], .nil, rfl, rfl, rfl⟩
      known := ⟨rfl, rfl⟩ }
  have hexpr (p : Precedence) : KeepsUp (shapeStage (State.ofTokens tokens).rest
      (State.ofTokens tokens).stop (State.ofTokens tokens').stop)
        (Forgetful.expression settings.table settings.limit p)
        (fun _ => Forgetful.expression settings.table settings.limit p) :=
    keepsUp_forgetful_self _ settings.limit p
  rw [Forgetful.readTokens_eq_outcome] at hresult ⊢
  rw [Forgetful.readTokens_eq_outcome]
  exact (keepsUp_program hexpr).like_outcome .nil habreast hresult

/-- What reading ends with, locations apart. -/
def eraseOutcome : Except SyntaxError (Option Expr) → Except SyntaxError (Option Expr)
  | .ok e? => .ok (e?.map Expr.eraseLocations)
  | .error e => .error e.eraseLocation

theorem eraseOutcome_eq_of_like {x x' : Except SyntaxError (Option Expr)}
    {r : Location → Location → Prop} (h : LikeResult r x x') :
    eraseOutcome x = eraseOutcome x' := by
  cases h with
  | ok h =>
    cases h with
    | some he => exact congrArg (Except.ok ∘ some) (Expr.eraseLocations_eq_of_like he)
    | none => rfl
  | error he => exact congrArg Except.error (SyntaxError.eraseLocation_eq_of_like he)

/-- Readers end alike over tokens of the same shape, unless one of them runs out of room. -/
theorem like_readTokens_of_roomy {limit limit' : Nat}
    (hshape : List.Forall₂ SameShape tokens tokens')
    (h : ∀ loc, readTokens ⟨table, limit⟩ tokens ≠ .error (.recursionLimitExceeded loc))
    (h' : ∀ loc, readTokens ⟨table, limit'⟩ tokens' ≠ .error (.recursionLimitExceeded loc)) :
    LikeResult (fun _ _ => True) (readTokens ⟨table, limit⟩ tokens)
      (readTokens ⟨table, limit'⟩ tokens') := by
  -- in enough room readers without memory end as the two do
  obtain ⟨room, hroom, hroom'⟩ := ((eventually_forgetful_readTokens h).and
    (eventually_forgetful_readTokens h')).exists
  have hlike : LikeResult (fun _ _ => True) (Forgetful.readTokens ⟨table, room⟩ tokens)
      (Forgetful.readTokens ⟨table, room⟩ tokens') :=
    like_forgetful_readTokens hshape (hroom ▸ isRecoverable_of_roomy h)
  rwa [hroom, hroom'] at hlike

/-- Tokens of the same shape are read as trees that differ in nothing but locations, or as nothing
    at all, or both fail with the same error about the same kind of token, unless reading one of
    them takes more room than there is. -/
theorem eraseOutcome_readTokens_eq {limit limit' : Nat}
    (hshape : List.Forall₂ SameShape tokens tokens')
    (h : ∀ loc, readTokens ⟨table, limit⟩ tokens ≠ .error (.recursionLimitExceeded loc))
    (h' : ∀ loc, readTokens ⟨table, limit'⟩ tokens' ≠ .error (.recursionLimitExceeded loc)) :
    eraseOutcome (readTokens ⟨table, limit⟩ tokens) =
      eraseOutcome (readTokens ⟨table, limit'⟩ tokens') :=
  eraseOutcome_eq_of_like (like_readTokens_of_roomy hshape h h')

/-- The tokens of `f[x] + y`. -/
def callAndSum : List Token :=
  [⟨.symbol, "f", ⟨0, 1⟩⟩, ⟨.leftBracket, "[", ⟨1, 2⟩⟩, ⟨.symbol, "x", ⟨2, 3⟩⟩,
    ⟨.rightBracket, "]", ⟨3, 4⟩⟩, ⟨.plus, "+", ⟨5, 6⟩⟩, ⟨.symbol, "y", ⟨7, 8⟩⟩]

/-- Tokens of the same shape, all of them at one place and with other signs for the operators. -/
def callAndSumElsewhere : List Token :=
  [⟨.symbol, "f", .zero⟩, ⟨.leftBracket, "(", .zero⟩, ⟨.symbol, "x", .zero⟩,
    ⟨.rightBracket, ")", .zero⟩, ⟨.plus, "&", .zero⟩, ⟨.symbol, "y", .zero⟩]

theorem eraseOutcome_callAndSum :
    eraseOutcome (readTokens {} callAndSum) = eraseOutcome (readTokens {} callAndSumElsewhere) := by
  have hshape : List.Forall₂ SameShape callAndSum callAndSumElsewhere := by
    unfold callAndSum callAndSumElsewhere
    repeat' constructor
    all_goals decide
  have hroomy : ∀ tokens, (readTokens {} tokens).isOk = true →
      ∀ loc, readTokens {} tokens ≠ .error (.recursionLimitExceeded loc) := by
    intro tokens hok loc heq
    rw [heq] at hok
    cases hok
  exact eraseOutcome_readTokens_eq hshape (hroomy _ (by decide +kernel))
    (hroomy _ (by decide +kernel))

end Symbolic.Reader
