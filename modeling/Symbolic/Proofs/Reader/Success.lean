import Mathlib.Data.List.TakeWhile
import Mathlib.Order.Filter.AtTopBot.Basic
import Symbolic.Proofs.Reader.Memory

/-!
# Readings that succeed

What the rules of the grammar give where their parts are read. A reader is looked at before the
tokens it reads, within the brackets around it; room for nesting is taken to be as much as is
needed.

## Key results

- `Turns`, `exists_turns_of_iterate`: a repetition that comes to an end, turn by turn
- `exists_of_expression_ok`: what an expression that is read is made of
- `trailing_of_stops`: a token that binds less tightly than asked for ends an operand
- `eventually_expression_of_chain`: an expression is read if its leading form and what extends it
  are
- `readTokens_of_expression`, `eventually_readTokens`: from one expression that takes up all tokens
  to the whole input
-/

namespace Symbolic

/-- A token by itself, at no place in particular. -/
def Token.unplaced (kind : TokenKind) (text : String) : Token :=
  ⟨kind, text, .zero⟩

/-- A token without a place has its kind. -/
theorem Token.kind_unplaced (kind : TokenKind) (text : String) :
    (Token.unplaced kind text).kind = kind := rfl

/-- A token of a given kind. -/
abbrev TokenOf (kind : TokenKind) :=
  {t : Token // t.kind = kind}

/-- A token of a given kind between two offsets. -/
def TokenOf.placed (kind : TokenKind) (text : String) (start stop : UInt32) : TokenOf kind :=
  ⟨⟨kind, text, ⟨start, stop⟩⟩, rfl⟩

/-- The expression of a symbol. -/
def Expr.ofSymbol (t : TokenOf .symbol) : Expr :=
  .symbol (canonicalName t.1.text) t.1.loc

namespace Reader

open Parse Filter

/-! ## A reader before given tokens -/

namespace State

/-- The reader before other tokens. -/
def before (s : State) (tokens : List Token) : State :=
  { s with rest := tokens }

/-- The reader within one more bracket. -/
def within (s : State) (opening : Location) : State :=
  { s with brackets := opening :: s.brackets }

variable {s : State} {t : Token} {tokens : List Token}

/-- Before given tokens, those are what is left. -/
@[simp] theorem rest_before : (s.before tokens).rest = tokens := rfl

/-- Before given tokens, the first of them is next. -/
@[simp] theorem current_before_cons : (s.before (t :: tokens)).current = t := rfl

/-- Before no tokens the input ends. -/
@[simp] theorem kind_current_before_nil : (s.before []).current.kind = .endOfInput := rfl

/-- A reader is before what is left to it. -/
theorem before_rest : s.before s.rest = s := rfl

end State

variable {s s' s'' : State} {t : Token} {tokens : List Token} {α β : Type}

/-! ## Single steps -/

/-- A step that fails does so whatever its value would be put to. -/
theorem map_error {m : Parse α} {e : SyntaxError} (f : α → β) (h : m s = .error e s') :
    (f <$> m) s = .error e s' := by
  show EStateM.map f m s = _
  simp only [EStateM.map, h]

/-- Advancing passes over one token, and goes on with its location. -/
theorem advance_bind (f : Location → Parse α) :
    (advance >>= f) (s.before (t :: tokens)) = f t.loc (s.before tokens) := rfl

/-- Opening a bracket passes over it, and goes on within it. -/
theorem openBracket_bind (f : Location → Parse α) :
    (openBracket >>= f) (s.before (t :: tokens)) = f t.loc ((s.within t.loc).before tokens) := rfl

/-- A token that is expected and there is passed over. -/
theorem expect_ok {kind : TokenKind} (h : t.kind = kind) :
    expect kind (s.before (t :: tokens)) = .ok t.loc (s.before tokens) :=
  (expect_eq kind _).trans (if_pos h)

/-- Closing a bracket passes over it, and goes on where the bracket was opened. -/
theorem closeBracket_ok {closer : TokenKind} {opening : Location} (h : t.kind = closer) :
    closeBracket closer ((s.within opening).before (t :: tokens)) =
      .ok t.loc (s.before tokens) :=
  (closeBracket_eq closer _).trans (if_pos h)

/-! ## Repetition -/

/-- Turns end with the first that is done. -/
theorem iterate_done {turn : α → Parse (Turn α β)} {a : α} {b : β}
    (h : turn a s = .ok (.done b) s') : iterate turn a s = .ok b s' := by
  rw [iterate, h]

/-- Turns go on behind one that has taken a token. -/
theorem iterate_again {turn : α → Parse (Turn α β)} {a a' : α}
    (h : turn a s = .ok (.again a') s') (hlt : s'.rest.length < s.rest.length) :
    iterate turn a s = iterate turn a' s' := by
  rw [iterate, h]
  exact if_pos hlt

/-- Turns end with the first that fails. -/
theorem iterate_error {turn : α → Parse (Turn α β)} {a : α} {e : SyntaxError}
    (h : turn a s = .error e s') : iterate turn a s = .error e s' := by
  rw [iterate, h]

/-- A turn that reads a token, and others after it, leaves fewer of them. -/
theorem iterate_again_before {turn : α → Parse (Turn α β)} {a a' : α} {inside rest : List Token}
    (h : turn a (s.before (t :: (inside ++ rest))) = .ok (.again a') (s.before rest)) :
    iterate turn a (s.before (t :: (inside ++ rest))) = iterate turn a' (s.before rest) := by
  have hlt : rest.length < (t :: (inside ++ rest)).length := by
    rw [List.length_cons, List.length_append]
    omega
  exact iterate_again h hlt

/-- Turns that read one link each go over all the links, to what follows these. -/
theorem eventually_iterate_foldl {γ : Type} {turn : ℕ → α → Parse (Turn α β)} {step : α → γ → α}
    {rest : List Token} (tokensOf : γ → List Token)
    (hturn : ∀ (a : α) (link : γ) (links : List γ), ∀ᶠ room in atTop,
      turn room a (s.before (tokensOf link ++ (links.flatMap tokensOf ++ rest))) =
        .ok (.again (step a link)) (s.before (links.flatMap tokensOf ++ rest)))
    (hne : ∀ link, tokensOf link ≠ []) (links : List γ) (a : α) :
    ∀ᶠ room in atTop, iterate (turn room) a (s.before (links.flatMap tokensOf ++ rest)) =
      iterate (turn room) (links.foldl step a) (s.before rest) := by
  -- induction on the links, each of which is one turn
  induction links generalizing a with
  | nil => exact .of_forall fun _ => rfl
  | cons link links ih =>
    obtain ⟨t, inside, htokens⟩ := List.exists_cons_of_ne_nil (hne link)
    filter_upwards [hturn a link links, ih (step a link)] with room hlink hlinks
    rw [List.flatMap_cons, List.append_assoc, List.foldl_cons, ← hlinks]
    rw [htokens, List.cons_append] at hlink ⊢
    exact iterate_again_before hlink

/-- The turns of a repetition that comes to an end, given by what each turn but the last goes on
    from, and where. -/
inductive Turns (turn : α → Parse (Turn α β)) :
    α → State → List (α × State) → β → State → Prop where
  | done {a : α} {b : β} {s s' : State} (last : turn a s = .ok (.done b) s') :
      Turns turn a s [] b s'
  | again {a a' : α} {b : β} {s s₁ s' : State} {trail : List (α × State)}
      (first : turn a s = .ok (.again a') s₁) (rest : Turns turn a' s₁ trail b s') :
      Turns turn a s ((a, s) :: trail) b s'

/-- Turns that come to an end make a trail of the values and places between them. -/
theorem exists_turns_of_iterate {turn : α → Parse (Turn α β)} {a : α} {b : β}
    (h : iterate turn a s = .ok b s') : ∃ trail, Turns turn a s trail b s' := by
  -- induction on what remains of the input
  induction hn : s.rest.length using Nat.strongRecOn generalizing a s with
  | _ n ih =>
    subst hn
    rw [iterate] at h
    split at h
    · cases h
    · rename_i hdone
      cases h
      exact ⟨[], .done hdone⟩
    · rename_i hagain
      split at h
      · rename_i hlt
        obtain ⟨trail, hrest⟩ := ih _ hlt h rfl
        exact ⟨_, .again hagain hrest⟩
      · cases h

/-- What the turns that go on have in common holds at each of them. -/
theorem Turns.forall_mem {turn : α → Parse (Turn α β)} {P : α → State → Prop}
    (hturn : ∀ a a' s s', turn a s = .ok (.again a') s' → P a s) {a : α} {b : β}
    {trail : List (α × State)} (h : Turns turn a s trail b s') : ∀ v ∈ trail, P v.1 v.2 := by
  induction h with
  | done => exact fun v hv => nomatch hv
  | again first rest ih =>
    intro v hv
    rcases List.mem_cons.mp hv with rfl | hv
    · exact hturn _ _ _ _ first
    · exact ih v hv

/-- The last of the turns is done. -/
theorem Turns.exists_done {turn : α → Parse (Turn α β)} {a : α} {b : β}
    {trail : List (α × State)} (h : Turns turn a s trail b s') :
    ∃ a' s₁, turn a' s₁ = .ok (.done b) s' := by
  induction h with
  | done last => exact ⟨_, _, last⟩
  | again first rest ih => exact ih

/-- The last turn of a repetition is one that ends it. -/
theorem exists_done_of_iterate {turn : α → Parse (Turn α β)} {a : α} {b : β}
    (h : iterate turn a s = .ok b s') : ∃ a' s₁, turn a' s₁ = .ok (.done b) s' := by
  obtain ⟨trail, hturns⟩ := exists_turns_of_iterate h
  exact hturns.exists_done

/-- There are no more tokens in the links that are left than in all links. -/
theorem length_flatMap_dropWhile_le (tokensOf : α → List Token) (belongs : α → Bool)
    (links : List α) :
    ((links.dropWhile belongs).flatMap tokensOf).length ≤ (links.flatMap tokensOf).length := by
  have happend : links.flatMap tokensOf =
      (links.takeWhile belongs).flatMap tokensOf ++
        (links.dropWhile belongs).flatMap tokensOf := by
    rw [← List.flatMap_append, List.takeWhile_append_dropWhile]
  rw [happend, List.length_append]
  omega

/-! ## Tokens that end an operand -/

end Reader

/-- How tightly a kind of token binds an operand before it, if it can extend one: as an operator,
    or else by being multiplied with. -/
def OperatorTable.grip? (table : OperatorTable) (kind : TokenKind) : Option Precedence :=
  match table.trailing? kind with
  | some op => some op.precedence
  | none =>
    if kind.endsOperand then none else (table.lookup? .times .infixed).map Operator.precedence

/-- Whether a kind of token ends every operand whose operators have to bind at least as tightly
    as `p`. A colon looks at more than that. -/
def OperatorTable.Stops (table : OperatorTable) (p : Precedence) (kind : TokenKind) : Prop :=
  kind ≠ .rawColon ∧ ∀ q ∈ table.grip? kind, q < p

/-- The kinds that have a rule of their own where they follow an operand. -/
def TokenKind.hasOwnRule : TokenKind → Bool
  | .messageName | .leftBracket | .derivative | .minus | .divide | .equal | .unequal | .less
  | .greater | .lessEqual | .greaterEqual | .prefixMark | .postfixMark | .infixMark | .applyList
  | .function | .rawColon | .semicolon | .span | .tagSet => true
  | _ => false

/-- A colon has a rule of its own. -/
theorem TokenKind.ne_rawColon_of_general {kind : TokenKind} (h : kind.hasOwnRule = false) :
    kind ≠ .rawColon := by
  rintro rfl
  cases h

instance (table : OperatorTable) (p : Precedence) (kind : TokenKind) :
    Decidable (table.Stops p kind) :=
  decidable_of_iff (kind ≠ .rawColon ∧ (table.grip? kind).all (· < p) = true) <| by
    simp [OperatorTable.Stops, Option.all_eq_true]

namespace Reader

open Parse Filter

variable {s s' s'' s₁ : State} {t : Token} {tokens : List Token} {α β : Type}
  {table : OperatorTable} {expr : Precedence → Parse Expr} {p : Precedence} {lhs : Expr}

/-- What ends an expression ends one that binds more tightly, too. -/
theorem stops_of_le {q : Precedence} {kind : TokenKind} (h : table.Stops p kind) (hpq : p ≤ q) :
    table.Stops q kind :=
  ⟨h.1, fun r hr => UInt16.lt_of_lt_of_le (h.2 r hr) hpq⟩

/-- An infix operator ends an operand that asks for more than it binds. -/
theorem stops_of_infixed {op : Operator} {kind : TokenKind}
    (hfound : table.lookup? kind .infixed = some op) (hcolon : kind ≠ .rawColon)
    (hp : op.precedence < p) : table.Stops p kind := by
  refine ⟨hcolon, ?_⟩
  simpa [OperatorTable.grip?, OperatorTable.trailing?_of_infixed hfound] using hp

/-- Before a token that ends it, an operand stays as it is. -/
theorem trailing_of_stops (h : table.Stops p s.current.kind) :
    trailing table expr p lhs s = .ok (.done lhs) s := by
  obtain ⟨hcolon, hgrip⟩ := h
  unfold trailing
  rw [peek_bind]
  unfold OperatorTable.grip? at hgrip
  cases htrailing : table.trailing? s.current.kind with
  | some op =>
    -- an operator that binds less tightly
    simp only [htrailing, Option.mem_some_iff, forall_eq'] at hgrip ⊢
    rw [if_neg hcolon, if_pos hgrip]
    rfl
  | none =>
    -- no operator at all: the token could still be multiplied by
    simp only [htrailing] at hgrip ⊢
    unfold juxtaposition
    rw [peek_bind]
    cases htimes : table.lookup? .times .infixed with
    | none => rfl
    | some times =>
      have hdone : (s.current.kind.endsOperand || decide (times.precedence < p)) = true := by
        by_cases hends : s.current.kind.endsOperand = true
        · simp [hends]
        · simpa [hends, htimes] using hgrip
      simp only [if_pos hdone]
      rfl

/-- So the turns end right there. -/
theorem iterate_of_stops (h : table.Stops p s.current.kind) :
    iterate (trailing table expr p) lhs s = .ok lhs s :=
  iterate_done (trailing_of_stops h)

/-! ## Atoms and brackets -/

/-- Atoms other than prefix operators stand for themselves. -/
theorem leading_atom {e : Expr} (hlead : table.lookup? t.kind .prefixed = none)
    (hkind : t.kind.isAtom = true) (h : Expr.atom table t = .ok e) :
    leading table expr (s.before (t :: tokens)) = .ok e (s.before tokens) := by
  have hatom : atom table (s.before (t :: tokens)) = .ok e (s.before tokens) := by
    unfold atom
    rw [peek_bind, State.current_before_cons, h]
    rfl
  unfold leading
  rw [peek_bind, State.current_before_cons, hlead]
  dsimp only
  refine (congrFun (?_ : _ = atom table) _).trans hatom
  -- no bracket is an atom
  split
  · rename_i hbracket
    simp [hbracket, TokenKind.isAtom] at hkind
  · rename_i hbracket
    simp [hbracket, TokenKind.isAtom] at hkind
  · rename_i hbracket
    simp [hbracket, TokenKind.isAtom] at hkind
  · exact if_pos hkind

/-- A symbol is read as that symbol, unless the table has it for a prefix operator. -/
theorem leading_symbol (hlead : table.lookup? .symbol .prefixed = none) (x : TokenOf .symbol) :
    leading table expr (s.before (x.1 :: tokens)) = .ok (.ofSymbol x) (s.before tokens) := by
  refine leading_atom (by rw [x.2, hlead]) (by rw [x.2]; rfl) ?_
  simp [Expr.atom, Expr.leaf, x.2, Expr.ofSymbol]

/-- A prefix operator leads with what its own rule reads. -/
theorem leading_prefixed {op : Operator} {kind : TokenKind} (ht : t.kind = kind)
    (hfound : table.lookup? kind .prefixed = some op) :
    leading table expr (s.before (t :: tokens)) =
      prefixed table expr op (s.before (t :: tokens)) := by
  unfold leading
  rw [peek_bind, State.current_before_cons, ht, hfound]

/-- What parentheses make of the expression between them. -/
def grouped (loc : Location) : Expr → Expr
  | .node head children _ _ => .node head children true loc
  | e => e

/-- What stands in parentheses is read to the closing one, and put in brackets. -/
theorem group_ok {opening closing : Token} {inside rest : List Token} {e : Expr}
    (h : expr 0 ((s.within opening.loc).before inside) =
      .ok e ((s.within opening.loc).before (closing :: rest)))
    (hclosing : closing.kind = .rightParen) :
    group expr (s.before (opening :: inside)) =
      .ok (grouped (opening.loc.union closing.loc) e) (s.before rest) := by
  unfold group
  rw [openBracket_bind, bind_ok _ h, bind_ok _ (closeBracket_ok hclosing)]
  cases e <;> rfl

/-- Parentheses start an expression, unless the table has them for a prefix operator. -/
theorem leading_group {opening closing : Token} {inside rest : List Token} {e : Expr}
    (hopening : opening.kind = .leftParen) (hlead : table.lookup? .leftParen .prefixed = none)
    (h : expr 0 ((s.within opening.loc).before inside) =
      .ok e ((s.within opening.loc).before (closing :: rest)))
    (hclosing : closing.kind = .rightParen) :
    leading table expr (s.before (opening :: inside)) =
      .ok (grouped (opening.loc.union closing.loc) e) (s.before rest) := by
  unfold leading
  rw [peek_bind, State.current_before_cons, hopening, hlead]
  exact group_ok h hclosing

/-! ## Infix operators -/

/-- An infix operator makes a node over the operand before it and the one that is read behind it. -/
theorem infixedNode_ok {op : Operator} {rhs : Expr}
    (hchain : isForbiddenChain lhs op = false)
    (h : expr op.rightPrecedence (s.before tokens) = .ok rhs s') :
    infixedNode table expr lhs op (s.before (t :: tokens)) =
      .ok (.make table op.head [lhs, rhs] (lhs.loc.union rhs.loc)) s' := by
  unfold infixedNode
  simp only [hchain, Bool.false_eq_true, if_false]
  rw [advance_bind, bind_ok _ h]
  rfl

/-- Where an infix operator has made a node, an operand has been read behind it. -/
theorem exists_of_infixedNode_ok {op : Operator} {e : Expr}
    (h : infixedNode table expr lhs op (s.before (t :: tokens)) = .ok e s') :
    ∃ rhs, expr op.rightPrecedence (s.before tokens) = .ok rhs s' ∧
      e = .make table op.head [lhs, rhs] (lhs.loc.union rhs.loc) := by
  unfold infixedNode at h
  cases hchain : isForbiddenChain lhs op with
  | true =>
    simp only [hchain, if_true] at h
    cases h
  | false =>
    simp only [hchain, Bool.false_eq_true, if_false] at h
    rw [advance_bind] at h
    obtain ⟨rhs, s₁, hrhs, hmake⟩ := exists_of_bind_ok h
    cases hmake
    exact ⟨rhs, hrhs, rfl⟩

/-- What the general rule makes of an operator that has no rule of its own. -/
theorem extended_general {op : Operator} {kind : TokenKind} (h : kind.hasOwnRule = false)
    (hop : op.fixity = .infixed) :
    extended table expr lhs op kind = .again <$> infixedNode table expr lhs op := by
  revert h
  unfold extended
  -- every case but the last is of a kind with a rule of its own
  split <;> intro h
  any_goals cases h
  rw [hop]

/-- An operator that binds tightly enough extends the operand. -/
theorem trailing_extended {op : Operator} {kind : TokenKind} (ht : t.kind = kind)
    (hfound : table.trailing? kind = some op) (hcolon : kind ≠ .rawColon)
    (hp : p ≤ op.precedence) :
    trailing table expr p lhs (s.before (t :: tokens)) =
      extended table expr lhs op kind (s.before (t :: tokens)) := by
  unfold trailing
  rw [peek_bind, State.current_before_cons, ht]
  simp only [hfound, if_neg hcolon, if_neg (UInt16.not_lt.mpr hp)]

/-- An infix operator with no rule of its own builds a node, if it binds tightly enough. -/
theorem trailing_eq_infixedNode {op : Operator} {kind : TokenKind} (ht : t.kind = kind)
    (hfound : table.lookup? kind .infixed = some op) (hkind : kind.hasOwnRule = false)
    (hp : p ≤ op.precedence) :
    trailing table expr p lhs (s.before (t :: tokens)) =
      (.again <$> infixedNode table expr lhs op) (s.before (t :: tokens)) := by
  have hfixity : op.fixity = .infixed := (Prod.mk.inj (OperatorTable.key_of_lookup? hfound)).2
  rw [trailing_extended ht (OperatorTable.trailing?_of_infixed hfound)
    (TokenKind.ne_rawColon_of_general hkind) hp, extended_general hkind hfixity]

/-- An infix operator that binds tightly enough extends its operand, if it may be chained with
    that. -/
theorem trailing_of_allowed {op : Operator} {kind : TokenKind} {rhs : Expr} (ht : t.kind = kind)
    (hfound : table.lookup? kind .infixed = some op) (hkind : kind.hasOwnRule = false)
    (hchain : isForbiddenChain lhs op = false) (hp : p ≤ op.precedence)
    (h : expr op.rightPrecedence (s.before tokens) = .ok rhs s') :
    trailing table expr p lhs (s.before (t :: tokens)) =
      .ok (.again (.make table op.head [lhs, rhs] (lhs.loc.union rhs.loc))) s' := by
  rw [trailing_eq_infixedNode ht hfound hkind hp]
  exact map_ok _ (infixedNode_ok hchain h)

/-- It may be, unless it is not associative. -/
theorem trailing_general {op : Operator} {kind : TokenKind} {rhs : Expr} (ht : t.kind = kind)
    (hfound : table.lookup? kind .infixed = some op) (hkind : kind.hasOwnRule = false)
    (hop : op.associativity ≠ .nonAssociative) (hp : p ≤ op.precedence)
    (h : expr op.rightPrecedence (s.before tokens) = .ok rhs s') :
    trailing table expr p lhs (s.before (t :: tokens)) =
      .ok (.again (.make table op.head [lhs, rhs] (lhs.loc.union rhs.loc))) s' :=
  trailing_of_allowed ht hfound hkind (by simp [isForbiddenChain, hop]) hp h

/-! ## Expressions and inputs -/

/-- Reading an expression ends as its chain does, with enough room for the parts. -/
theorem eventually_expression {result : EStateM.Result SyntaxError State Expr}
    (h : ∀ᶠ room in atTop, chain table (Forgetful.expression table room) p s = result) :
    ∀ᶠ room in atTop, Forgetful.expression table room p s = result := by
  -- reading an expression takes one more level than reading its parts
  obtain ⟨least, h⟩ := eventually_atTop.mp h
  refine eventually_atTop.mpr ⟨least + 1, fun room hroom => ?_⟩
  obtain ⟨room, rfl⟩ : ∃ n, room = n + 1 := ⟨room - 1, by omega⟩
  exact h room (by omega)

/-- Behind a leading form the turns go on that extend it. -/
theorem chain_of_leading {e : Expr} (h : leading table expr s = .ok e s') :
    chain table expr p s = iterate (trailing table expr p) e s' := by
  unfold chain
  rw [bind_ok _ h]

/-- A chain is read where its leading form is, and all that extends it. -/
theorem chain_ok {e e' : Expr} (hleading : leading table expr s = .ok e s')
    (h : iterate (trailing table expr p) e s' = .ok e' s'') :
    chain table expr p s = .ok e' s'' := by
  rw [chain_of_leading hleading, h]

/-- Once a chain has come to a token that ends it, the expression is read. -/
theorem eventually_expression_of_chain {e : Expr}
    (h : ∀ᶠ room in atTop, chain table (Forgetful.expression table room) p s =
      iterate (trailing table (Forgetful.expression table room) p) e s')
    (hstop : table.Stops p s'.current.kind) :
    ∀ᶠ room in atTop, Forgetful.expression table room p s = .ok e s' := by
  refine eventually_expression ?_
  filter_upwards [h] with room h
  rw [h, iterate_of_stops hstop]

/-- An error that is final is not remembered, and a reader that remembers nothing looks it up
    nowhere. -/
theorem remember_error_of_final {step : Parse Expr} {e : SyntaxError} (hs : s.failures = [])
    (he : e.isRecoverable = false) (h : step s = .error e s') :
    remember p step s = .error e s' := by
  unfold remember
  simp only [hs, List.lookup_nil, h, he, Bool.false_eq_true, if_false]

/-- What is read with the help of the memory has been read by the step. -/
theorem eq_ok_of_remember {step : Parse Expr} {e : Expr} (h : remember p step s = .ok e s') :
    step s = .ok e s' := by
  unfold remember at h
  split at h
  · cases h
  · split at h
    · rename_i hstep
      rw [hstep, h]
    · split at h <;> cases h

/-- An expression that is read has a leading form, extended as far as possible. -/
theorem exists_of_expression_ok {room : Nat} {e : Expr}
    (h : expression table room p s = .ok e s') :
    ∃ inner first s₁, room = inner + 1 ∧
      leading table (expression table inner) s = .ok first s₁ ∧
      iterate (trailing table (expression table inner) p) first s₁ = .ok e s' := by
  cases room with
  | zero => cases h
  | succ inner =>
    obtain ⟨first, s₁, hleading, hchain⟩ := exists_of_bind_ok (eq_ok_of_remember h)
    exact ⟨inner, first, s₁, rfl, hleading, hchain⟩

/-- Before a token that binds less tightly than asked for, an expression is its leading form. -/
theorem eq_leading_of_stops {room : Nat} {first e : Expr}
    (h : expression table room p s = .ok e s')
    (hleading : ∀ expr, leading table expr s = .ok first s₁)
    (hstop : table.Stops p s₁.current.kind) : e = first ∧ s' = s₁ := by
  obtain ⟨inner, first', s₁', -, hleading', hchain⟩ := exists_of_expression_ok h
  cases hleading'.symm.trans (hleading _)
  rw [iterate_of_stops hstop] at hchain
  cases hchain
  exact ⟨rfl, rfl⟩

/-- An input that is accepted leaves the reader somewhere. -/
theorem exists_program_ok {settings : Settings} {tokens : List Token} {e? : Option Expr}
    (h : readTokens settings tokens = .ok e?) :
    ∃ s', program settings (.ofTokens tokens) = .ok e? s' := by
  unfold readTokens run at h
  split at h
  · cases h
    exact ⟨_, by assumption⟩
  · cases h

/-- An input that is refused leaves it somewhere, too. -/
theorem program_error {settings : Settings} {tokens : List Token} {e : SyntaxError}
    (h : readTokens settings tokens = .error e) :
    program settings (.ofTokens tokens) = .error e (run settings (.ofTokens tokens)).2 := by
  unfold readTokens at h
  unfold run at h ⊢
  split at h
  · cases h
  · cases h
    assumption

/-- Tokens with no end among them are all read, and then what is read of those after them. -/
theorem rest_ofTokens_more {tokens : List Token} (htokens : ∀ t ∈ tokens, t.kind ≠ .endOfInput)
    (more : List Token) :
    (State.ofTokens (tokens ++ more)).rest = tokens ++ (State.ofTokens more).rest :=
  List.takeWhile_append_of_pos (by simpa using htokens)

/-- What follows the end of the input is not read. -/
theorem rest_ofTokens_append {tokens ending : List Token}
    (htokens : ∀ t ∈ tokens, t.kind ≠ .endOfInput)
    (hending : ∀ t ∈ ending.head?, t.kind = .endOfInput) :
    (State.ofTokens (tokens ++ ending)).rest = tokens := by
  have hnil : (State.ofTokens ending).rest = [] := by
    cases ending with
    | nil => rfl
    | cons t rest => simpa [State.ofTokens] using hending t
  rw [rest_ofTokens_more htokens, hnil, List.append_nil]

/-- Of an input without an end all tokens are left at the start. -/
theorem rest_ofTokens {tokens : List Token} (htokens : ∀ t ∈ tokens, t.kind ≠ .endOfInput) :
    (State.ofTokens tokens).rest = tokens :=
  List.takeWhile_eq_self_iff.mpr (by simpa using htokens)

/-- An input goes on after its first expression. -/
theorem programTurns_again {e : Expr} (hkind : s.current.kind ≠ .endOfInput)
    (h : expr 0 s = .ok e s') (hlt : s'.rest.length < s.rest.length) :
    iterate (programTurn expr) [] s = iterate (programTurn expr) [e] s' := by
  have hturn : programTurn expr [] s = .ok (.again [e]) s' := by
    unfold programTurn
    rw [peek_bind, if_neg hkind, bind_ok _ h]
    rfl
  exact iterate_again hturn hlt

/-- An expression that takes up all tokens is the whole input. -/
theorem programTurns_ok {e : Expr} (hkind : s.current.kind ≠ .endOfInput)
    (h : expr 0 s = .ok e (s.before [])) :
    iterate (programTurn expr) [] s = .ok (some e) (s.before []) := by
  have hshorter : (s.before []).rest.length < s.rest.length := by
    cases hrest : s.rest with
    | nil => exact absurd (by rw [State.current, hrest]; rfl) hkind
    | cons t rest => exact Nat.zero_lt_succ _
  -- the turn after that of the expression finds the end
  have hend : programTurn expr [e] (s.before []) = .ok (.done (some e)) (s.before []) := rfl
  rw [programTurns_again hkind h hshorter, iterate_done hend]

/-- An input whose first expression fails ends as that does. -/
theorem programTurns_error {e : SyntaxError} (hkind : s.current.kind ≠ .endOfInput)
    (h : expr 0 s = .error e s') : iterate (programTurn expr) [] s = .error e s' := by
  have hturn : programTurn expr [] s = .error e s' := by
    unfold programTurn
    rw [peek_bind, if_neg hkind]
    exact bind_error h
  exact iterate_error hturn

/-- Tokens that are read as one expression, up to the end, are read as that expression in as much
    room. -/
theorem readTokens_of_expression {limit : Nat} {tokens ending : List Token} {e : Expr}
    (htokens : ∀ t ∈ tokens, t.kind ≠ .endOfInput) (hne : tokens ≠ [])
    (hending : ∀ t ∈ ending.head?, t.kind = .endOfInput)
    (h : Forgetful.expression table limit 0 ((State.ofTokens (tokens ++ ending)).before tokens) =
      .ok e ((State.ofTokens (tokens ++ ending)).before [])) :
    readTokens ⟨table, limit⟩ (tokens ++ ending) = .ok (some e) := by
  have hrest := rest_ofTokens_append htokens hending
  obtain ⟨t, after, rfl⟩ := List.exists_cons_of_ne_nil hne
  have hkind : (State.ofTokens (t :: after ++ ending)).current.kind ≠ .endOfInput := by
    rw [State.current, hrest]
    exact htokens t (by simp)
  refine readTokens_eq_forgetful ?_ (fun _ he => by cases he)
  generalize hs : State.ofTokens (t :: after ++ ending) = s at h hrest hkind
  rw [← hrest, State.before_rest] at h
  unfold Forgetful.readTokens Forgetful.program
  rw [hs, programTurns_ok hkind h]

/-- An input whose first expression fails is refused for that. -/
theorem readTokens_eq_error {limit : Nat} {input : List Token} {e : SyntaxError}
    (hkind : (State.ofTokens input).current.kind ≠ .endOfInput)
    (h : expression table limit 0 (State.ofTokens input) = .error e s') :
    readTokens ⟨table, limit⟩ input = .error e := by
  unfold readTokens run program
  rw [programTurns_error hkind h]

/-- So it is where the reader that keeps no memory fails, as long as an attempt could go back. -/
theorem readTokens_of_expression_error {limit : Nat} {input : List Token} {e : SyntaxError}
    (hkind : (State.ofTokens input).current.kind ≠ .endOfInput) (he : e.isRecoverable = true)
    (h : Forgetful.expression table limit 0 (State.ofTokens input) = .error e s') :
    readTokens ⟨table, limit⟩ input = .error e := by
  refine readTokens_eq_forgetful ?_ (fun e' he' => by cases he'; exact he)
  unfold Forgetful.readTokens Forgetful.program
  rw [programTurns_error hkind h]

/-- With room enough an input is refused if its only expression is. -/
theorem eventually_readTokens_error {tokens ending : List Token} {e : SyntaxError}
    (htokens : ∀ t ∈ tokens, t.kind ≠ .endOfInput) (hne : tokens ≠ [])
    (hending : ∀ t ∈ ending.head?, t.kind = .endOfInput) (he : e.isRecoverable = true)
    (h : ∀ᶠ room in atTop, ∃ s',
      Forgetful.expression table room 0 ((State.ofTokens (tokens ++ ending)).before tokens) =
        .error e s') :
    ∀ᶠ limit in atTop, readTokens ⟨table, limit⟩ (tokens ++ ending) = .error e := by
  have hrest := rest_ofTokens_append htokens hending
  obtain ⟨t, after, rfl⟩ := List.exists_cons_of_ne_nil hne
  have hkind : (State.ofTokens (t :: after ++ ending)).current.kind ≠ .endOfInput := by
    rw [State.current, hrest]
    exact htokens t (by simp)
  -- before all of the tokens the reader is where it starts
  have hbefore : (State.ofTokens (t :: after ++ ending)).before (t :: after) =
      State.ofTokens (t :: after ++ ending) := by
    conv_rhs => rw [← State.before_rest (s := State.ofTokens (t :: after ++ ending)), hrest]
  filter_upwards [h] with limit hlimit
  obtain ⟨s', hread⟩ := hlimit
  rw [hbefore] at hread
  exact readTokens_of_expression_error hkind he hread

/-- With room enough an input is read if its only expression is. -/
theorem eventually_readTokens {tokens ending : List Token} {e : Expr}
    (htokens : ∀ t ∈ tokens, t.kind ≠ .endOfInput) (hne : tokens ≠ [])
    (hending : ∀ t ∈ ending.head?, t.kind = .endOfInput)
    (h : ∀ᶠ room in atTop,
      Forgetful.expression table room 0 ((State.ofTokens (tokens ++ ending)).before tokens) =
        .ok e ((State.ofTokens (tokens ++ ending)).before [])) :
    ∀ᶠ limit in atTop, readTokens ⟨table, limit⟩ (tokens ++ ending) = .ok (some e) := by
  filter_upwards [h] with limit h
  exact readTokens_of_expression htokens hne hending h

end Reader

end Symbolic
