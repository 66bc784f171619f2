import Mathlib.Data.Set.Basic
import Symbolic.Proofs.Application.Bare
import Symbolic.Reader.Program

/-!
# What a trailing form looks at in the operand before it

Two readers that stand at the same place with different operands behind them take the same steps
from there, and make the same of what follows, as long as no rule tells the operands apart. A rule
looks at little: at the head of an open node, where the operator makes nodes with just this head,
and at whether the operand is a symbol or a pattern, where a colon follows. So for each kind of
token there are a few heads that matter, and to any other operand an application is opaque.

## Key results

- `SameEnd`, `Matches`: steps that do the same but for their values
- `sameEnd_iterate`: loops of such steps
- `takenUp`: the heads that the form after an operand looks for in it
- `sameEnd_trailing`: what follows two operands that are alike as far as these are concerned
-/

namespace Symbolic.Application

open Reader Parse Symbolic.Expr

variable {α α' β β' γ γ' : Type} {s : State}

/-! ## Steps that do the same -/

/-- Both end at the same place with related values, or with the same error. -/
inductive SameEnd (R : α → α' → Prop) :
    EStateM.Result SyntaxError State α → EStateM.Result SyntaxError State α' → Prop where
  | ok {a : α} {a' : α'} {s : State} (value : R a a') : SameEnd R (.ok a s) (.ok a' s)
  | error {e : SyntaxError} {s : State} : SameEnd R (.error e s) (.error e s)

/-- From any state both steps end at the same place with related values, or with the same
    error. -/
def Matches (R : α → α' → Prop) (m : Parse α) (m' : Parse α') : Prop :=
  ∀ s, SameEnd R (m s) (m' s)

/-- Both turns go on, with related values, or both end. -/
inductive TurnMatch (R : α → α' → Prop) (Q : β → β' → Prop) : Turn α β → Turn α' β' → Prop where
  | again {a : α} {a' : α'} (value : R a a') : TurnMatch R Q (.again a) (.again a')
  | done {b : β} {b' : β'} (value : Q b b') : TurnMatch R Q (.done b) (.done b')

namespace Matches

variable {R : α → α' → Prop} {Q : β → β' → Prop}

/-- What takes no step makes related values. -/
theorem pure {a : α} {a' : α'} (h : R a a') : Matches R (pure a) (pure a') :=
  fun _ => .ok h

/-- Steps that do the same can be put one behind the other. -/
theorem bind {m : Parse α} {m' : Parse α'} {f : α → Parse β} {f' : α' → Parse β'}
    (hm : Matches R m m') (hf : ∀ a a', R a a' → Matches Q (f a) (f' a')) :
    Matches Q (m >>= f) (m' >>= f') := by
  intro s
  show SameEnd Q (EStateM.bind m f s) (EStateM.bind m' f' s)
  unfold EStateM.bind
  have hs := hm s
  revert hs
  generalize m s = r, m' s = r'
  rintro (⟨value⟩ | _)
  · exact hf _ _ value _
  · exact .error

/-- Every step does the same as itself. -/
theorem refl (m : Parse α) : Matches Eq m m := by
  intro s
  cases m s with
  | ok a s' => exact .ok rfl
  | error e s' => exact .error

/-- A step that both have in common. -/
theorem step {m : Parse α} {f : α → Parse β} {f' : α → Parse β'}
    (hf : ∀ a, Matches Q (f a) (f' a)) : Matches Q (m >>= f) (m >>= f') :=
  (refl m).bind fun _ _ h => h ▸ hf _

/-- Steps that do the same still do so under functions on their values. -/
theorem map {m : Parse α} {m' : Parse α'} {g : α → β} {g' : α' → β'} (hm : Matches R m m')
    (hg : ∀ a a', R a a' → Q (g a) (g' a')) : Matches Q (g <$> m) (g' <$> m') := by
  intro s
  show SameEnd Q (EStateM.map g m s) (EStateM.map g' m' s)
  unfold EStateM.map
  have hs := hm s
  revert hs
  generalize m s = r, m' s = r'
  rintro (⟨value⟩ | _)
  · exact .ok (hg _ _ value)
  · exact .error

/-- A form that extends both operands is one more turn. -/
theorem again {m m' : Parse Expr} {R : Expr → Expr → Prop} {Q : Expr → Expr → Prop}
    (h : Matches R m m') :
    Matches (TurnMatch R Q) (Turn.again <$> m : Parse (Turn Expr Expr))
      (Turn.again <$> m' : Parse (Turn Expr Expr)) :=
  h.map fun _ _ value => .again value

end Matches

/-- A loop whose turns match, the first one at the place where it is. -/
theorem sameEnd_iterate {R : α → α' → Prop} {Q : β → β' → Prop} {turn : α → Parse (Turn α β)}
    {turn' : α' → Parse (Turn α' β')} {a : α} {a' : α'}
    (hfirst : SameEnd (TurnMatch R Q) (turn a s) (turn' a' s))
    (h : ∀ a a', R a a' → Matches (TurnMatch R Q) (turn a) (turn' a')) :
    SameEnd Q (iterate turn a s) (iterate turn' a' s) := by
  -- induction on what remains of the input
  induction hn : s.rest.length using Nat.strongRecOn generalizing a a' s with
  | _ n ih =>
    subst hn
    rw [iterate, iterate]
    revert hfirst
    generalize turn a s = r, turn' a' s = r'
    rintro (⟨_ | value⟩ | _)
    · rename_i s' a a' value
      dsimp only
      split
      · rename_i hlt
        exact ih _ hlt (h _ _ value s') rfl
      · exact .error
    · exact .ok value
    · exact .error

/-- Turns that do the same can be repeated. -/
theorem Matches.iterate {R : α → α' → Prop} {Q : β → β' → Prop} {turn : α → Parse (Turn α β)}
    {turn' : α' → Parse (Turn α' β')} {a : α} {a' : α'} (value : R a a')
    (h : ∀ a a', R a a' → Matches (TurnMatch R Q) (turn a) (turn' a')) :
    Matches Q (iterate turn a) (iterate turn' a') :=
  fun s => sameEnd_iterate (h _ _ value s) h

/-! ## Forms that make nodes -/

section Forms

variable {expr : Precedence → Parse Expr} {lhs lhs' : Expr} {heads : Set String} {op : Operator}
  {p : Precedence} {kind : TokenKind} (h : Twin heads lhs lhs')
  (hflat : OperatorTable.standard.isFlat op.head = true → op.head ∈ heads)

include h hflat in
/-- The rule for `e[[i]]` takes the same steps behind trees that no rule tells apart. -/
theorem matches_part : Matches (Twin .univ) (part .standard expr lhs op)
    (part .standard expr lhs' op) := by
  unfold part
  exact .step fun _ => .step fun indices => .step fun _ => .step fun closing =>
    .pure (twin_make h hflat)

include h in
/-- The rule for `f[x]` takes the same steps behind trees that no rule tells apart. -/
theorem matches_call : Matches (Twin .univ) (call expr lhs) (call expr lhs') := by
  unfold call
  exact .step fun args => .step fun closing => .pure (twin_parenthesize_apply h.bare)

include h hflat in
/-- The rule for a call or a part takes the same steps behind trees that no rule tells apart. -/
theorem matches_callOrPart : Matches (Twin .univ) (callOrPart .standard expr lhs op)
    (callOrPart .standard expr lhs' op) := by
  unfold callOrPart
  refine .step fun _ => .step fun token => ?_
  split
  · exact matches_part h hflat
  · exact matches_call h

include h in
/-- The rule for `f @ x` takes the same steps behind trees that no rule tells apart. -/
theorem matches_prefixApplication : Matches (Twin .univ) (prefixApplication expr lhs op)
    (prefixApplication expr lhs' op) := by
  unfold prefixApplication
  exact .step fun _ => .step fun rhs => .pure (twin_apply h.bare rfl)

include h in
/-- The rule for `x // f` takes the same steps behind trees that no rule tells apart. -/
theorem matches_postfixApplication : Matches (Twin .univ) (postfixApplication expr lhs op)
    (postfixApplication expr lhs' op) := by
  unfold postfixApplication
  exact .step fun _ => .step fun rhs => .pure (twin_apply rfl (by simp [h.bare]))

include h in
/-- The rule for `a ~ f ~ b` takes the same steps behind trees that no rule tells apart. -/
theorem matches_infixApplication : Matches (Twin .univ) (infixApplication expr lhs op)
    (infixApplication expr lhs' op) := by
  unfold infixApplication
  exact .step fun _ => .step fun f => .step fun _ => .step fun rhs =>
    .pure (twin_apply rfl (by simp [h.bare]))

include h hflat in
/-- The rule for `f @@@ x` takes the same steps behind trees that no rule tells apart. -/
theorem matches_levelApplication : Matches (Twin .univ) (levelApplication .standard expr lhs op)
    (levelApplication .standard expr lhs' op) := by
  unfold levelApplication
  exact .step fun sign => .step fun rhs => .pure (twin_make h hflat)

include h hflat in
/-- The rule for a pure function takes the same steps behind trees that no rule tells apart. -/
theorem matches_pureFunction : Matches (Twin .univ) (pureFunction .standard expr lhs op)
    (pureFunction .standard expr lhs' op) := by
  unfold pureFunction
  refine .step fun token => .step fun sign => ?_
  split
  · exact .pure (twin_make h hflat)
  · exact .step fun body => .pure (twin_make h hflat)

include h in
/-- The rule for `f''` takes the same steps behind trees that no rule tells apart. -/
theorem matches_derivative : Matches (Twin .univ) (derivative .standard lhs op)
    (derivative .standard lhs' op) := by
  unfold derivative
  exact .step fun first => .step fun marks => .pure (twin_apply rfl (by simp [h.bare]))

/-- An operand and the other one, with the same tags after them. -/
def SameTags (lhs lhs' : Expr) (message message' : List Expr × Location) : Prop :=
  ∃ tags, message.1 = lhs :: tags ∧ message'.1 = lhs' :: tags

/-- The rule for one more tag of a message takes the same steps behind trees that no rule tells
    apart. -/
theorem matches_messageTurn {message message' : List Expr × Location}
    (h : SameTags lhs lhs' message message') :
    Matches (TurnMatch (SameTags lhs lhs') (SameTags lhs lhs')) (messageTurn op message)
      (messageTurn op message') := by
  obtain ⟨tags, hmessage, hmessage'⟩ := h
  unfold messageTurn
  refine .step fun token => ?_
  split
  · refine .step fun _ => .step fun tag => ?_
    split
    · -- both readings take the same tag, so both messages grow by it
      refine .step fun loc => .pure (.again ⟨tags ++ [.string tag.text tag.loc], ?_, ?_⟩)
      · simp [hmessage]
      · simp [hmessage']
    · exact fun s => .error
  · exact .pure (.done ⟨tags, hmessage, hmessage'⟩)

include h hflat in
/-- The rule for `a::b` takes the same steps behind trees that no rule tells apart. -/
theorem matches_messageName : Matches (Twin .univ) (messageName .standard lhs op)
    (messageName .standard lhs' op) := by
  unfold messageName
  -- the operand stays the first of the children
  have hstart : SameTags lhs lhs' ([lhs], lhs.loc) ([lhs'], lhs'.loc) := ⟨[], rfl, rfl⟩
  refine (Matches.iterate hstart fun _ _ => matches_messageTurn).bind ?_
  rintro ⟨children, loc⟩ ⟨children', loc'⟩ ⟨tags, rfl, rfl⟩
  exact .pure (twin_make h hflat)

include h hflat in
/-- The rule for `a - b` takes the same steps behind trees that no rule tells apart. -/
theorem matches_difference : Matches (Twin .univ) (difference .standard expr lhs op)
    (difference .standard expr lhs' op) := by
  unfold difference
  exact .step fun sign => .step fun rhs => .pure (twin_make h hflat)

include h hflat in
/-- The rule for `a / b` takes the same steps behind trees that no rule tells apart. -/
theorem matches_quotient : Matches (Twin .univ) (quotient .standard expr lhs op)
    (quotient .standard expr lhs' op) := by
  unfold quotient
  exact .step fun sign => .step fun rhs => .pure (twin_make h hflat)

include h in
/-- The rule for a comparison takes the same steps behind trees that no rule tells apart. -/
theorem matches_comparison (hheads : ∀ head ∈ comparisonHeads, head ∈ heads)
    (hop : op.head ∈ comparisonHeads) :
    Matches (Twin .univ) (comparison .standard expr lhs op)
      (comparison .standard expr lhs' op) := by
  unfold comparison
  exact .step fun sign => .step fun rhs => .pure (twin_compare h hheads hop)

include h hflat in
/-- The rule for `a; b` takes the same steps behind trees that no rule tells apart. -/
theorem matches_compound : Matches (Twin .univ) (compound .standard expr lhs op)
    (compound .standard expr lhs' op) := by
  unfold compound
  refine .step fun sign => .step fun isEnd => ?_
  split
  · exact .pure (twin_make h hflat)
  · exact .step fun rhs? => .pure (twin_make h hflat)

include h in
/-- The rule for `f /: p = v` takes the same steps behind trees that no rule tells apart. -/
theorem matches_tagSet : Matches (Twin .univ) (tagSet .standard expr lhs op)
    (tagSet .standard expr lhs' op) := by
  -- no assignment is flat
  have hnone : ∀ kind head, tagHead? kind = some head →
      OperatorTable.standard.isFlat head = false := by
    intro kind head hhead
    unfold tagHead? at hhead
    split at hhead <;> cases hhead <;> decide +kernel
  unfold tagSet
  refine .step fun _ => .step fun pattern => .step fun token => ?_
  split
  · exact fun s => .error
  rename_i head hhead
  have hbare : ∀ es : List Expr, (lhs :: es).map Expr.bare = (lhs' :: es).map Expr.bare := by
    simp [h.bare]
  refine .step fun sign => ?_
  split
  · exact .pure (twin_make_of_bare (hnone _ _ hhead) (hbare _))
  · exact .step fun value => .pure (twin_make_of_bare (hnone _ _ hhead) (hbare _))

include h hflat in
/-- The rule for a span behind its start takes the same steps behind trees that no rule tells
    apart. -/
theorem matches_trailingSpan (hop : op.head ∈ heads) :
    Matches (TurnMatch (Twin .univ) fun e e' => e.bare = e'.bare)
      (trailingSpan .standard expr lhs op) (trailingSpan .standard expr lhs' op) := by
  unfold trailingSpan
  rw [h.isOpenNode op.head hop]
  split
  · -- an open span is not extended, and both trees are one or neither is
    exact .pure (.done h.bare)
  · refine .bind (R := Twin .univ) ?_ fun e e' value => .pure (.again value)
    -- the tokens behind the trees are the same, so the ends and the steps are
    unfold spanFrom
    refine .step fun sign => .step fun isEnd => ?_
    split
    · exact .pure (twin_make h hflat)
    · refine .step fun stop => .step fun step? => ?_
      split
      · exact .pure (twin_make h hflat)
      · exact .pure (twin_make h hflat)

include h hflat in
/-- The rule for the node of an infix operator takes the same steps behind trees that no rule tells
    apart. -/
theorem matches_infixedNode (hop : op.associativity = .nonAssociative → op.head ∈ heads) :
    Matches (Twin .univ) (infixedNode .standard expr lhs op)
      (infixedNode .standard expr lhs' op) := by
  have hchain : isForbiddenChain lhs op = isForbiddenChain lhs' op := by
    unfold isForbiddenChain
    cases hassoc : op.associativity with
    | nonAssociative => rw [h.isOpenNode _ (hop hassoc)]
    | left | right | flat => rfl
  unfold infixedNode
  rw [hchain]
  split
  · exact .step fun token => fun s => .error
  · exact .step fun _ => .step fun rhs => .pure (twin_make h hflat)

include h hflat in
/-- The rule for the node of a postfix operator takes the same steps behind trees that no rule tells
    apart. -/
theorem matches_postfixedNode : Matches (Twin .univ) (postfixedNode .standard lhs op)
    (postfixedNode .standard lhs' op) := by
  unfold postfixedNode
  exact .step fun sign => .pure (twin_make h hflat)

end Forms

/-! ## All trailing forms -/

/-- The heads that what follows an operand looks for in it: a flat operator takes up the children
    of its own head, an operator that does not chain refuses them, a span ends before another one,
    and a comparison goes on with any other. Side by side, operands are multiplied. -/
def takenUp (kind : TokenKind) : List String :=
  match OperatorTable.standard.trailing? kind with
  | none => if kind.endsOperand then [] else ["Times"]
  | some op =>
    if op.head ∈ comparisonHeads then comparisonHeads
    else if op.associativity = .nonAssociative ∨ OperatorTable.standard.isFlat op.head ∨
      kind = .span then [op.head]
    else []

variable {expr : Precedence → Parse Expr} {lhs lhs' : Expr} {op : Operator} {p : Precedence}
  {kind : TokenKind}

/-- The head of an operator is looked for before it, if that may be chained, is flat or makes
    spans. -/
theorem head_mem_takenUp (hfound : OperatorTable.standard.trailing? kind = some op)
    (h : op.associativity = .nonAssociative ∨ OperatorTable.standard.isFlat op.head ∨
      kind = .span) : op.head ∈ takenUp kind := by
  unfold takenUp
  rw [hfound]
  dsimp only
  split
  · assumption
  · exact List.mem_singleton_self _

/-- All heads of comparisons are looked for before one of them. -/
theorem mem_takenUp_of_comparison (hfound : OperatorTable.standard.trailing? kind = some op)
    (h : op.head ∈ comparisonHeads) : ∀ head ∈ comparisonHeads, head ∈ takenUp kind := by
  unfold takenUp
  rw [hfound]
  dsimp only
  rw [if_pos h]
  exact fun _ hmem => hmem

/-- What any two operands that look the same may end as. -/
abbrev BareEq (e e' : Expr) : Prop :=
  e.bare = e'.bare

/-- The rule for expressions side by side takes the same steps behind trees that no rule tells
    apart. -/
theorem matches_juxtaposition (hnone : OperatorTable.standard.trailing? kind = none)
    (h : Twin {head | head ∈ takenUp kind} lhs lhs') (hkind : s.current.kind = kind) :
    SameEnd (TurnMatch (Twin .univ) BareEq) (juxtaposition .standard expr lhs p s)
      (juxtaposition .standard expr lhs' p s) := by
  have htimes : OperatorTable.standard.lookup? .times .infixed =
      some (.infixed .times "Times" 400 .flat) := rfl
  unfold juxtaposition
  rw [peek_bind, peek_bind, htimes, hkind]
  dsimp only
  split
  · exact .ok (.done h.bare)
  · rename_i hcontinues
    -- the next token does not end the operand
    have hends : kind.endsOperand = false := by
      cases hends : kind.endsOperand with
      | false => rfl
      | true => simp [hends] at hcontinues
    -- so it is one before which products are looked for
    have hmem : "Times" ∈ takenUp kind := by
      rw [takenUp, hnone]
      simp [hends]
    exact Matches.step (fun rhs => .pure (.again (twin_make h fun _ => hmem))) s

/-- A colon asks whether the operand is a symbol or a pattern, open or not. -/
theorem matches_colon (h : lhs.bare = lhs'.bare) (hop : op.head = "Pattern") :
    Matches (TurnMatch (Twin .univ) BareEq) (colon .standard expr lhs op p)
      (colon .standard expr lhs' op p) := by
  -- what a colon means depends on names alone
  have hmeaning : colonMeaning? .standard lhs op = colonMeaning? .standard lhs' op := by
    unfold colonMeaning?
    rw [symbolName?_eq_of_bare h, headName?_eq_of_bare h]
  -- neither of the two heads is flat, so nothing is spliced
  have hflat : ∀ head precedence, colonMeaning? .standard lhs' op = some (head, precedence) →
      OperatorTable.standard.isFlat head = false := by
    intro head precedence hhead
    unfold colonMeaning? at hhead
    split at hhead
    · cases hhead
      rw [hop]
      decide +kernel
    · split at hhead <;> cases hhead
      decide +kernel
  unfold colon
  rw [hmeaning]
  split
  · exact .pure (.done h)
  rename_i head precedence hhead
  split
  · exact .pure (.done h)
  · exact .step fun _ => .step fun rhs =>
      .pure (.again (twin_make_of_bare (hflat _ _ hhead) (by simp [h])))

/-- The rule for any form that extends an operand takes the same steps behind trees that no rule
    tells apart. -/
theorem matches_extended (hfound : OperatorTable.standard.trailing? kind = some op)
    (h : Twin {head | head ∈ takenUp kind} lhs lhs') :
    Matches (TurnMatch (Twin .univ) BareEq) (extended .standard expr lhs op kind)
      (extended .standard expr lhs' op kind) := by
  -- flat heads are looked for, and so are those of comparisons
  have hflat : OperatorTable.standard.isFlat op.head = true → op.head ∈ takenUp kind :=
    fun hflat => head_mem_takenUp hfound (.inr (.inl hflat))
  have hcompare : op.head ∈ comparisonHeads → Matches (TurnMatch (Twin .univ) BareEq)
      (Turn.again <$> comparison .standard expr lhs op)
      (Turn.again <$> comparison .standard expr lhs' op) :=
    fun hop => .again (matches_comparison h (mem_takenUp_of_comparison hfound hop) hop)
  unfold extended
  split
  · exact .again (matches_messageName h hflat)
  · exact .again (matches_callOrPart h hflat)
  · exact .again (matches_derivative h)
  · exact .again (matches_difference h hflat)
  · exact .again (matches_quotient h hflat)
  -- the six comparisons share one rule
  iterate 6
    · cases hfound
      exact hcompare (by decide)
  · exact .again (matches_prefixApplication h)
  · exact .again (matches_postfixApplication h)
  · exact .again (matches_infixApplication h)
  · exact .again (matches_levelApplication h hflat)
  · exact .again (matches_pureFunction h hflat)
  · exact .again (matches_compound h hflat)
  · exact matches_trailingSpan h hflat (head_mem_takenUp hfound (.inr (.inr rfl)))
  · exact .again (matches_tagSet h)
  split
  · exact .again (matches_infixedNode h hflat fun hassoc => head_mem_takenUp hfound (.inl hassoc))
  · exact .again (matches_postfixedNode h hflat)
  · exact .pure (.done h.bare)
  · exact .pure (.done h.bare)

/-- What follows two operands is read in the same way, if these look the same and are open alike
    as far as the heads count that the next token looks for. -/
theorem sameEnd_trailing (h : Twin {head | head ∈ takenUp s.current.kind} lhs lhs') :
    SameEnd (TurnMatch (Twin .univ) BareEq) (trailing .standard expr p lhs s)
      (trailing .standard expr p lhs' s) := by
  unfold trailing
  rw [peek_bind, peek_bind]
  cases hfound : OperatorTable.standard.trailing? s.current.kind with
  | none => exact matches_juxtaposition hfound h rfl
  | some op =>
    dsimp only
    split
    · -- the colon is the one form that is taken at any threshold
      rename_i hcolon
      rw [hcolon] at hfound
      cases hfound
      exact matches_colon h.bare rfl s
    split
    · exact .ok (.done h.bare)
    · exact matches_extended hfound h s

/-- The rule for what extends an operand or ends it takes the same steps behind trees that no rule
    tells apart. -/
theorem matches_trailing (h : Twin .univ lhs lhs') :
    Matches (TurnMatch (Twin .univ) BareEq) (trailing .standard expr p lhs)
      (trailing .standard expr p lhs') :=
  fun _ => sameEnd_trailing (h.mono (Set.subset_univ _))

/-- All that follows the two operands. -/
theorem sameEnd_iterate_trailing (h : Twin {head | head ∈ takenUp s.current.kind} lhs lhs') :
    SameEnd BareEq (iterate (trailing .standard expr p) lhs s)
      (iterate (trailing .standard expr p) lhs' s) :=
  sameEnd_iterate (sameEnd_trailing h) fun _ _ => matches_trailing

/-- What follows the first expressions of an input. -/
theorem matches_programTurns {exprs exprs' : List Expr}
    (h : exprs.map Expr.bare = exprs'.map Expr.bare) :
    Matches (fun e? e?' => e?.map Expr.bare = e?'.map Expr.bare)
      (iterate (programTurn expr) exprs) (iterate (programTurn expr) exprs') := by
  refine .iterate (R := fun es es' => es.map Expr.bare = es'.map Expr.bare) h fun es es' hes => ?_
  unfold programTurn
  refine .step fun token => ?_
  split
  · exact .pure (.done (bare_juxtaposed? hes))
  · exact .step fun e => .pure (.again (by simp [hes]))

end Symbolic.Application
