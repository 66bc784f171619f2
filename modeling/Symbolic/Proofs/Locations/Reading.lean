import Symbolic.Proofs.Locations.Regions
import Symbolic.Proofs.Reader.Progress
import Symbolic.Proofs.Reader.Success
import Symbolic.Proofs.Trees.SideBySide

/-!
# Every rule reads within a region

Each rule of the grammar makes a tree within a region of tokens within it, whatever the table says.
A rule passes over the token it starts from, which is not the end of the input, over tokens of kinds
that it has looked at, and over what its parts take up.

## Key results

- `stays_leading`, `stays_trailing`: the forms that start and that extend an expression
- `stays_expression`: an expression
- `has_of_readTokens`: a whole input
-/

namespace Symbolic.Reader

open Parse

variable {region : Region} {table : OperatorTable} {expr : Precedence → Parse Expr} {s s' : State}
  {lhs : Expr} {op : Operator}

section Rules

variable (h : ∀ p s, Stays region s (expr p))
include h

/-! ## Elements between commas -/

/-- The rule for one more expression in an element makes its tree within the region, from tokens
    within it. -/
theorem stays_elementTurn (closer : TokenKind) {factors : List Expr}
    (hfactors : region.Has factors) : Stays region s (elementTurn expr closer factors) := by
  unfold elementTurn
  refine .bind_peek fun _ => ?_
  split
  · exact .pure (.done (Expr.like_toList (Expr.like_juxtaposed? region.rel_union hfactors)))
  split
  · exact .unexpected
  split
  · exact .throw _
  · exact (h 0 s).bind fun e _ he => .pure (.again (List.rel_append hfactors (.cons he .nil)))

/-- The rule for an element makes its tree within the region, from tokens within it. -/
theorem stays_element (closer : TokenKind) : Stays region s (element expr closer) := by
  unfold element
  exact (h 0 s).bind fun e _ he =>
    .iterate (fun _ _ hfactors => (stays_elementTurn h closer hfactors).turn) (.cons he .nil)

section Closed

variable {closer : TokenKind} (hcloser : closer ≠ .endOfInput)
include hcloser

/-- The rule for one more element makes its tree within the region, from tokens within it. -/
theorem stays_sequenceTurn {items : List Expr} (hitems : region.Has items) :
    Stays region s (sequenceTurn expr closer items) := by
  -- an element that is left out is located at a token of the region
  have hadd : ∀ {loc}, region.holds loc → region.Has (items ++ [.symbol "Null" loc]) :=
    fun hloc => List.rel_append hitems (.cons (.symbol hloc) .nil)
  unfold sequenceTurn
  refine .bind_peek fun hcurrent => ?_
  split
  · rename_i hcomma
    exact (Stays.advance (by simp [hcomma])).bind fun loc _ hloc => .pure (.again (hadd hloc))
  split
  · -- the closing bracket is next, and it is no end of the input
    rename_i hkind
    refine .pure (.done ?_)
    split
    · exact .nil
    · exact hadd (hcurrent (hkind ▸ hcloser))
  split
  · exact .unexpected
  · -- an element that is there, and the comma behind it
    refine (stays_element h closer).bind fun es s₁ hes => .bind_peek fun _ => ?_
    have hitems' := List.rel_append hitems hes
    split
    · rename_i hcomma
      exact (Stays.advance (by simp [hcomma])).bind fun _ _ _ => .pure (.again hitems')
    · exact .pure (.done hitems')

/-- The rule for the elements up to a closing bracket makes its tree within the region, from tokens
    within it. -/
theorem stays_sequence : Stays region s (sequence expr closer) :=
  .iterate (fun _ _ hitems => (stays_sequenceTurn h hcloser hitems).turn) .nil

/-- The rule for a node over the elements between brackets makes its tree within the region, from
    tokens within it. -/
theorem stays_bracketed (hkind : s.current.kind ≠ .endOfInput) (head : String) :
    Stays region s (bracketed table expr head closer) := by
  unfold bracketed
  exact (Stays.openBracket hkind).bind fun opening _ hopening =>
    (stays_sequence h hcloser).bind fun items _ hitems => (Stays.closeBracket hcloser).bind
      fun closing _ hclosing => .pure (Expr.like_make hitems (region.union hopening hclosing))

end Closed

/-! ## Leading forms -/

section Leading

variable (hkind : s.current.kind ≠ .endOfInput)
include hkind

/-- The rule for `(e)` makes its tree within the region, from tokens within it. -/
theorem stays_group : Stays region s (group expr) := by
  unfold group
  refine (Stays.openBracket hkind).bind fun opening s₁ hopening => (h 0 s₁).bind fun e s₂ he =>
    (Stays.closeBracket (by decide)).bind fun closing s₃ hclosing => ?_
  split
  · exact .pure (Expr.like_parenthesize (Expr.like_withLoc he (region.union hopening hclosing)))
  · exact .pure he

/-- An operator with one operand after it, and a tree made of both. -/
theorem stays_operand {p : Precedence} {tree : Location → Expr → Expr}
    (htree : ∀ sign e, region.holds sign → region.Has e → region.Has (tree sign e)) :
    Stays region s (do
      let sign ← advance
      let e ← expr p
      return tree sign e) :=
  (Stays.advance hkind).bind fun sign s₁ hsign => (h p s₁).bind fun e _ he =>
    .pure (htree sign e hsign he)

/-- The rule for `-x` makes its tree within the region, from tokens within it. -/
theorem stays_minus : Stays region s (minus table expr op) :=
  stays_operand h hkind fun _ _ hsign he =>
    Expr.like_negate he hsign (region.union hsign (Expr.loc_like he))

/-- The rule for `+x` makes its tree within the region, from tokens within it. -/
theorem stays_plus : Stays region s (plus expr op) := by
  unfold plus
  refine (Stays.advance hkind).bind fun sign s₁ hsign => (h _ s₁).bind fun e s₂ he => ?_
  split
  · exact .pure he
  · exact .pure (Expr.like_withLoc he (region.union hsign (Expr.loc_like he)))

/-- The rule for `?x` makes its tree within the region, from tokens within it. -/
theorem stays_information : Stays region s (information table expr op) := by
  unfold information
  refine (Stays.advance hkind).bind fun sign s₁ hsign => .bind_peek fun _ =>
    (h _ s₁).bind fun e s₂ he => ?_
  dsimp only
  split
  · exact .throw_bind _
  · exact .pure (Expr.like_make (.cons he (.cons (Expr.like_make
      (.cons (.symbol hsign) (.cons (.symbol hsign) .nil)) hsign) .nil))
        (region.union hsign (Expr.loc_like he)))

/-- The rule for `!!x` makes its tree within the region, from tokens within it. -/
theorem stays_doubleNegation : Stays region s (doubleNegation table expr op) :=
  stays_operand h hkind fun _ _ hsign he =>
    have hloc := region.union hsign (Expr.loc_like he)
    Expr.like_make (.cons (Expr.like_make (.cons he .nil) hloc) .nil) hloc

/-- The rule for `∫ f ⅆ x` makes its tree within the region, from tokens within it. -/
theorem stays_integral : Stays region s (integral table expr op) := by
  unfold integral
  exact (Stays.advance hkind).bind fun sign s₁ hsign => (h _ s₁).bind fun e _ he =>
    (Stays.expect (by decide)).bind fun _ s₃ _ => (h _ s₃).bind fun x _ hx =>
      .pure (Expr.like_make (.cons he (.cons hx .nil)) (region.union hsign (Expr.loc_like hx)))

/-- The rule for the node of any other prefix operator makes its tree within the region, from tokens
    within it. -/
theorem stays_prefixedNode : Stays region s (prefixedNode table expr op) :=
  stays_operand h hkind fun _ _ hsign he =>
    Expr.like_make (.cons he .nil) (region.union hsign (Expr.loc_like he))

/-! ## Spans -/

omit hkind in
/-- The rule for the end of a span makes its tree within the region, from tokens within it. -/
theorem stays_spanEnd {sign : Location} (hsign : region.holds sign) :
    Stays region s (spanEnd expr op sign) := by
  unfold spanEnd
  refine .bind_peek fun _ => ?_
  split
  · exact .pure (.symbol hsign)
  · exact (h _ s).attempt.bind fun _ _ hstop => .pure (Expr.like_getD hstop (.symbol hsign))

omit hkind in
/-- The rule for the step of a span makes its tree within the region, from tokens within it. -/
theorem stays_spanStep? : Stays region s (spanStep? expr op) := by
  unfold spanStep?
  refine .bind_peek fun _ => ?_
  split
  · rename_i hspan
    exact .attempt ((Stays.advance (by simp [hspan])).bind fun _ s₁ _ => h _ s₁)
  · exact .pure .none

/-- The rule for a span from its first mark on makes its tree within the region, from tokens within
    it. -/
theorem stays_spanFrom (hlhs : region.Has lhs) : Stays region s (spanFrom table expr lhs op) := by
  unfold spanFrom
  refine (Stays.advance hkind).bind fun sign s₁ hsign => .bind_atFinalEnd fun isEnd => ?_
  -- a region has the union of any two of its locations
  have hloc := region.union (Expr.loc_like hlhs) hsign
  split
  · exact .pure (Expr.like_make (.cons hlhs (.cons (.symbol hsign) .nil)) hloc)
  refine (stays_spanEnd h hsign).bind fun stop s₂ hstop =>
    (stays_spanStep? h).bind fun step? s₃ hstep => ?_
  cases step? with
  | some step =>
    obtain ⟨hstep⟩ := hstep
    exact .pure (Expr.like_make (.cons hlhs (.cons hstop (.cons hstep .nil)))
      (region.union (Expr.loc_like hlhs) (Expr.loc_like hstep)))
  | none =>
    -- without a step the span ends where its end or its sign does
    exact .pure (Expr.like_make (.cons hlhs (.cons hstop .nil))
      (region.union (region.union (Expr.loc_like hlhs) (Expr.loc_like hstop)) hsign))

/-- The rule for a span without a start makes its tree within the region, from tokens within it. -/
theorem stays_leadingSpan : Stays region s (leadingSpan table expr op) := by
  unfold leadingSpan
  exact .bind_peek fun hcurrent =>
    stays_spanFrom h hkind (Expr.like_integer 1 (region.empty_start (hcurrent hkind)))

/-- The rule for a prefix operator with its operands makes its tree within the region, from tokens
    within it. -/
theorem stays_prefixed : Stays region s (prefixed table expr op) := by
  unfold prefixed
  split
  · exact stays_minus h hkind
  · exact stays_plus h hkind
  · exact stays_information h hkind
  · exact stays_information h hkind
  · exact stays_doubleNegation h hkind
  · exact stays_integral h hkind
  · exact stays_leadingSpan h hkind
  · exact stays_prefixedNode h hkind

omit h in
/-- The rule for an atom makes its tree within the region, from tokens within it. -/
theorem stays_atom : Stays region s (atom table) := by
  unfold atom
  exact .bind_peek fun hcurrent => .bind_ofResult (Expr.like_atom _ _ (hcurrent hkind))
    fun e he => (Stays.advance hkind).bind fun _ _ _ => .pure he

/-- The rule for a leading form makes its tree within the region, from tokens within it. -/
theorem stays_leading : Stays region s (leading table expr) := by
  unfold leading
  refine .bind_peek fun _ => ?_
  split
  · exact stays_prefixed h hkind
  split
  · exact stays_group h hkind
  · exact stays_bracketed h (by decide) hkind _
  · exact stays_bracketed h (by decide) hkind _
  split
  · exact stays_atom hkind
  · exact .unexpected

end Leading

/-! ## Trailing forms -/

section Trailing

variable (hlhs : region.Has lhs)
include hlhs

/-- The rule for expressions side by side makes its tree within the region, from tokens within
    it. -/
theorem stays_juxtaposition (p : Precedence) :
    Stays region s (juxtaposition table expr lhs p) := by
  unfold juxtaposition
  refine .bind_peek fun _ => ?_
  split
  · exact .pure (.done hlhs)
  split
  · exact .pure (.done hlhs)
  · exact (h _ s).bind fun rhs _ hrhs => .pure (.again (Expr.like_make
      (.cons hlhs (.cons hrhs .nil)) (region.union (Expr.loc_like hlhs) (Expr.loc_like hrhs))))

variable (hkind : s.current.kind ≠ .endOfInput)
include hkind

/-- The rule for the node of an infix operator makes its tree within the region, from tokens within
    it. -/
theorem stays_infixedNode : Stays region s (infixedNode table expr lhs op) := by
  unfold infixedNode
  split
  · exact .bind_peek fun _ => .throw_bind _
  · exact stays_operand h hkind fun _ _ _ hrhs => Expr.like_make (.cons hlhs (.cons hrhs .nil))
      (region.union (Expr.loc_like hlhs) (Expr.loc_like hrhs))

omit h in
/-- The rule for the node of a postfix operator makes its tree within the region, from tokens within
    it. -/
theorem stays_postfixedNode : Stays region s (postfixedNode table lhs op) := by
  unfold postfixedNode
  exact (Stays.advance hkind).bind fun sign _ hsign =>
    .pure (Expr.like_make (.cons hlhs .nil) (region.union (Expr.loc_like hlhs) hsign))

/-- The rule for `a - b` makes its tree within the region, from tokens within it. -/
theorem stays_difference : Stays region s (difference table expr lhs op) :=
  stays_operand h hkind fun _ _ hsign hrhs =>
    have hloc := region.union hsign (Expr.loc_like hrhs)
    Expr.like_make (.cons hlhs (.cons (Expr.like_negate hrhs hsign hloc) .nil))
      (region.union (Expr.loc_like hlhs) hloc)

/-- The rule for `a / b` makes its tree within the region, from tokens within it. -/
theorem stays_quotient : Stays region s (quotient table expr lhs op) :=
  stays_operand h hkind fun _ _ hsign hrhs =>
    have hreciprocal := Expr.like_make (.cons hrhs (.cons (Expr.like_integer (-1) hsign) .nil))
      (Expr.loc_like hrhs)
    Expr.like_make (.cons hlhs (.cons hreciprocal .nil))
      (region.union (Expr.loc_like hlhs) (Expr.loc_like hrhs))

/-- The rule for a comparison makes its tree within the region, from tokens within it. -/
theorem stays_comparison : Stays region s (comparison table expr lhs op) :=
  stays_operand h hkind fun _ _ hsign hrhs => Expr.like_compare hlhs _ hsign hrhs
    (region.union (Expr.loc_like hlhs) (Expr.loc_like hrhs))

/-- The rule for `f @ x` makes its tree within the region, from tokens within it. -/
theorem stays_prefixApplication : Stays region s (prefixApplication expr lhs op) :=
  stays_operand h hkind fun _ _ _ hrhs => Expr.like_apply hlhs (.cons hrhs .nil)
    (region.union (Expr.loc_like hlhs) (Expr.loc_like hrhs))

/-- The rule for `x // f` makes its tree within the region, from tokens within it. -/
theorem stays_postfixApplication : Stays region s (postfixApplication expr lhs op) :=
  stays_operand h hkind fun _ _ _ hrhs => Expr.like_apply hrhs (.cons hlhs .nil)
    (region.union (Expr.loc_like hlhs) (Expr.loc_like hrhs))

/-- The rule for `f @@@ x` makes its tree within the region, from tokens within it. -/
theorem stays_levelApplication : Stays region s (levelApplication table expr lhs op) :=
  stays_operand h hkind fun _ _ hsign hrhs =>
    have hlevel := Expr.like_make (.cons (Expr.like_integer 1 hsign) .nil) hsign
    Expr.like_make (.cons hlhs (.cons hrhs (.cons hlevel .nil)))
      (region.union (Expr.loc_like hlhs) (Expr.loc_like hrhs))

/-- The rule for `a ~ f ~ b` makes its tree within the region, from tokens within it. -/
theorem stays_infixApplication (hop : op.kind ≠ .endOfInput) :
    Stays region s (infixApplication expr lhs op) := by
  unfold infixApplication
  exact (Stays.advance hkind).bind fun _ s₁ _ => (h _ s₁).bind fun f _ hf =>
    (Stays.expect hop).bind fun _ s₃ _ => (h _ s₃).bind fun rhs _ hrhs =>
      .pure (Expr.like_apply hf (.cons hlhs (.cons hrhs .nil))
        (region.union (Expr.loc_like hlhs) (Expr.loc_like hrhs)))

/-- The rule for a pure function makes its tree within the region, from tokens within it. -/
theorem stays_pureFunction : Stays region s (pureFunction table expr lhs op) := by
  unfold pureFunction
  refine .bind_peek fun _ => (Stays.advance hkind).bind fun sign s₁ hsign => ?_
  split
  · exact .pure (Expr.like_make (.cons hlhs .nil) (region.union (Expr.loc_like hlhs) hsign))
  · exact (h _ s₁).bind fun body _ hbody => .pure (Expr.like_make
      (.cons hlhs (.cons hbody .nil)) (region.union (Expr.loc_like hlhs) (Expr.loc_like hbody)))

/-- The rule for a call or a part makes its tree within the region, from tokens within it. -/
theorem stays_callOrPart : Stays region s (callOrPart table expr lhs op) := by
  -- a call ends at its closing bracket
  unfold callOrPart
  refine (Stays.openBracket hkind).bind fun _ s₁ _ => .bind_peek fun _ => ?_
  split
  · rename_i hsecond
    -- a part takes in its second closing bracket
    unfold part
    exact (Stays.advance (by simp [hsecond])).bind fun _ _ _ =>
      (stays_sequence h (by decide)).bind fun indices _ hindices =>
        (Stays.expect (by decide)).bind fun _ _ _ => (Stays.closeBracket (by decide)).bind
          fun closing _ hclosing => .pure (Expr.like_make (.cons hlhs hindices)
            (region.union (Expr.loc_like hlhs) hclosing))
  · unfold call
    exact (stays_sequence h (by decide)).bind fun args _ hargs =>
      (Stays.closeBracket (by decide)).bind fun closing _ hclosing =>
        .pure (Expr.like_parenthesize (Expr.like_apply hlhs hargs
          (region.union (Expr.loc_like hlhs) hclosing)))

/-! ## Derivatives and messages -/

omit h hlhs hkind in
/-- The rule for one more mark of a derivative makes its tree within the region, from tokens within
    it. -/
theorem stays_derivativeTurn (hop : op.kind ≠ .endOfInput) {marks : Nat × Location}
    (hmarks : region.Has marks) : Stays region s (derivativeTurn op marks) := by
  unfold derivativeTurn
  refine .bind_peek fun _ => ?_
  split
  · rename_i hmark
    exact (Stays.advance (hmark ▸ hop)).bind fun loc _ hloc => .pure (.again ⟨rfl, hloc⟩)
  · exact .pure (.done hmarks)

omit h in
/-- The rule for `f''` makes its tree within the region, from tokens within it. -/
theorem stays_derivative (hop : op.kind ≠ .endOfInput) :
    Stays region s (derivative table lhs op) := by
  unfold derivative
  refine .bind_peek fun hcurrent => ?_
  have hfirst : region.Has (0, s.current.loc) := ⟨rfl, hcurrent hkind⟩
  refine (Stays.iterate (fun _ _ hmarks => (stays_derivativeTurn hop hmarks).turn)
    hfirst).bind ?_
  rintro ⟨order, last⟩ s₁ ⟨-, hlast⟩
  have hloc := region.union hfirst.2 hlast
  exact .pure (Expr.like_apply (Expr.like_make (.cons (Expr.like_integer _ hloc) .nil) hloc)
    (.cons hlhs .nil) (region.union (Expr.loc_like hlhs) hlast))

omit h hlhs hkind in
/-- The rule for one more tag of a message makes its tree within the region, from tokens within
    it. -/
theorem stays_messageTurn (hop : op.kind ≠ .endOfInput) {message : List Expr × Location}
    (hmessage : region.Has message) : Stays region s (messageTurn op message) := by
  unfold messageTurn
  refine .bind_peek fun _ => ?_
  split
  · rename_i hmark
    refine (Stays.advance (hmark ▸ hop)).bind fun _ s₁ _ => .bind_peek fun hcurrent => ?_
    split
    · rename_i htag
      -- a tag is no end of the input, so it is in the region
      have htagKind : s₁.current.kind ≠ .endOfInput := by
        rcases htag with htag | htag <;> simp [htag]
      exact (Stays.advance htagKind).bind fun loc _ hloc => .pure (.again
        ⟨List.rel_append hmessage.1 (.cons (.string (hcurrent htagKind)) .nil),
          region.union hmessage.2 hloc⟩)
    · exact .unexpected
  · exact .pure (.done hmessage)

omit h hkind in
/-- The rule for `a::b` makes its tree within the region, from tokens within it. -/
theorem stays_messageName (hop : op.kind ≠ .endOfInput) :
    Stays region s (messageName table lhs op) := by
  have hfirst : region.Has ([lhs], lhs.loc) := ⟨.cons hlhs .nil, Expr.loc_like hlhs⟩
  unfold messageName
  exact (Stays.iterate (fun _ _ hmessage => (stays_messageTurn hop hmessage).turn)
    hfirst).bind fun message _ hmessage => .pure (Expr.like_make hmessage.1 hmessage.2)

/-! ## Patterns and statements -/

/-- The rule for `x:p` or `p:v` makes its tree within the region, from tokens within it. -/
theorem stays_colon (p : Precedence) : Stays region s (colon table expr lhs op p) := by
  unfold colon
  split
  · exact .pure (.done hlhs)
  split
  · exact .pure (.done hlhs)
  · exact (Stays.advance hkind).bind fun _ s₁ _ => (h _ s₁).bind fun rhs _ hrhs =>
      .pure (.again (Expr.like_make (.cons hlhs (.cons hrhs .nil))
        (region.union (Expr.loc_like hlhs) (Expr.loc_like hrhs))))

/-- The rule for `a; b` makes its tree within the region, from tokens within it. -/
theorem stays_compound : Stays region s (compound table expr lhs op) := by
  -- a missing statement is located at the semicolon
  have hnode : ∀ {rhs? : Option Expr} {sign}, region.Has rhs? → region.holds sign →
      region.Has (Expr.make table op.head [lhs, rhs?.getD (.symbol "Null" sign)]
        (lhs.loc.union (rhs?.getD (.symbol "Null" sign)).loc)) := fun hrhs hsign =>
    have hright := Expr.like_getD hrhs (.symbol hsign)
    Expr.like_make (.cons hlhs (.cons hright .nil))
      (region.union (Expr.loc_like hlhs) (Expr.loc_like hright))
  unfold compound
  refine (Stays.advance hkind).bind fun sign s₁ hsign => .bind_atFinalEnd fun isEnd => ?_
  dsimp only
  split
  · exact .pure (hnode .none hsign)
  · exact (h _ s₁).attempt.bind fun rhs? _ hrhs => .pure (hnode hrhs hsign)

/-- The rule for `f /: p = v` makes its tree within the region, from tokens within it. -/
theorem stays_tagSet : Stays region s (tagSet table expr lhs op) := by
  unfold tagSet
  refine (Stays.advance hkind).bind fun _ s₁ _ => (h _ s₁).bind fun pattern s₂ hpattern =>
    .bind_peek fun _ => ?_
  split
  · exact .missing _
  rename_i head hhead
  -- the second operator is no end of the input either
  have hset : s₂.current.kind ≠ .endOfInput := by
    intro hend
    rw [hend] at hhead
    cases hhead
  refine (Stays.advance hset).bind fun sign s₃ hsign => ?_
  split
  · exact .pure (Expr.like_make (.cons hlhs (.cons hpattern .nil))
      (region.union (Expr.loc_like hlhs) hsign))
  · exact (h _ s₃).bind fun value _ hvalue => .pure (Expr.like_make
      (.cons hlhs (.cons hpattern (.cons hvalue .nil)))
        (region.union (Expr.loc_like hlhs) (Expr.loc_like hvalue)))

/-- The rule for a span behind its start makes its tree within the region, from tokens within it. -/
theorem stays_trailingSpan : Stays region s (trailingSpan table expr lhs op) := by
  unfold trailingSpan
  split
  · exact .pure (.done hlhs)
  · exact (stays_spanFrom h hkind hlhs).bind fun e _ he => .pure (.again he)

/-! ## All trailing forms -/

/-- The rule for any form that extends an operand makes its tree within the region, from tokens
    within it. -/
theorem stays_extended {kind : TokenKind} (hop : op.kind ≠ .endOfInput) :
    Stays region s (extended table expr lhs op kind) := by
  unfold extended
  split
  · exact .again (stays_messageName hlhs hop)
  · exact .again (stays_callOrPart h hlhs hkind)
  · exact .again (stays_derivative hlhs hkind hop)
  · exact .again (stays_difference h hlhs hkind)
  · exact .again (stays_quotient h hlhs hkind)
  -- the six comparisons share one rule
  iterate 6 exact .again (stays_comparison h hlhs hkind)
  · exact .again (stays_prefixApplication h hlhs hkind)
  · exact .again (stays_postfixApplication h hlhs hkind)
  · exact .again (stays_infixApplication h hlhs hkind hop)
  · exact .again (stays_levelApplication h hlhs hkind)
  · exact .again (stays_pureFunction h hlhs hkind)
  · exact .again (stays_compound h hlhs hkind)
  · exact stays_trailingSpan h hlhs hkind
  · exact .again (stays_tagSet h hlhs hkind)
  split
  · exact .again (stays_infixedNode h hlhs hkind)
  · exact .again (stays_postfixedNode hlhs hkind)
  · exact .pure (.done hlhs)
  · exact .pure (.done hlhs)

/-- The rule for what extends an operand or ends it makes its tree within the region, from tokens
    within it. -/
theorem stays_trailing (p : Precedence) : Stays region s (trailing table expr p lhs) := by
  unfold trailing
  refine .bind_peek fun _ => ?_
  split
  · exact stays_juxtaposition h hlhs p
  rename_i op hfound
  obtain ⟨-, hop, -⟩ := OperatorTable.mem_of_trailing? hfound
  split
  · exact stays_colon h hlhs hkind p
  split
  · exact .pure (.done hlhs)
  · exact stays_extended h hlhs hkind (hop ▸ hkind)

end Trailing

/-! ## Expressions and inputs -/

omit h in
/-- An operand ends at the end of the input, unless that is taken for an operator. -/
theorem stops_endOfInput_of_loose {p : Precedence}
    (hloose : ∀ op ∈ table.trailing? .endOfInput, op.precedence < p) :
    table.Stops p .endOfInput := by
  refine ⟨by decide, ?_⟩
  unfold OperatorTable.grip?
  cases hfound : table.trailing? .endOfInput with
  | none => simp [TokenKind.endsOperand]
  | some op => simpa using hloose op hfound

omit h in
/-- At the end of the input an operand is ended as it is, if it is ended. -/
theorem eq_of_trailing_done {p : Precedence} {e : Expr} (hend : s.current.kind = .endOfInput)
    (htrailing : trailing table expr p lhs s = .ok (.done e) s') : lhs = e ∧ s = s' := by
  by_cases hloose : ∀ op ∈ table.trailing? .endOfInput, op.precedence < p
  · rw [trailing_of_stops (hend ▸ stops_endOfInput_of_loose hloose)] at htrailing
    exact pure_done_iff.mp htrailing
  · -- an operator that extends the operand does not end it
    obtain ⟨op, hfound, hp⟩ : ∃ op ∈ table.trailing? .endOfInput, ¬op.precedence < p := by
      simpa using hloose
    unfold trailing at htrailing
    rw [peek_bind, hend] at htrailing
    simp only [Option.mem_def.mp hfound, if_neg hp, reduceCtorEq, if_false] at htrailing
    unfold extended at htrailing
    cases hfixity : op.fixity <;> simp only [hfixity] at htrailing
    case infixed => exact absurd htrailing map_again_ne_done
    case postfixed => exact absurd htrailing map_again_ne_done
    all_goals exact pure_done_iff.mp htrailing

/-- A turn of the loop over what extends an operand stays within the region; at the end of the input
    it changes nothing. -/
theorem staysTurn_trailing (p : Precedence) (hlhs : region.Has lhs) :
    StaysTurn region s (trailing table expr p lhs) := by
  by_cases hkind : s.current.kind = .endOfInput
  · refine ⟨fun hs e s' hdone => ?_, fun hs e s' _ hlt => ?_⟩
    · obtain ⟨rfl, rfl⟩ := eq_of_trailing_done hkind hdone
      exact ⟨hlhs, hs⟩
    · -- no token is left that could have been passed over
      rw [rest_eq_nil_of_ahead hs hkind] at hlt
      exact absurd hlt (Nat.not_lt_zero _)
  · exact (stays_trailing h hlhs hkind p).turn

/-- The rule for a leading form with all that extends it makes its tree within the region, from
    tokens within it. -/
theorem stays_chain (hkind : s.current.kind ≠ .endOfInput) (p : Precedence) :
    Stays region s (chain table expr p) := by
  unfold chain
  exact (stays_leading h hkind).bind fun lhs _ hlhs =>
    .iterate (fun _ _ hlhs => staysTurn_trailing h p hlhs) hlhs

/-- The rule for one more expression of an input makes its tree within the region, from tokens
    within it. -/
theorem stays_programTurn {exprs : List Expr} (hexprs : region.Has exprs) :
    Stays region s (programTurn expr exprs) := by
  unfold programTurn
  refine .bind_peek fun _ => ?_
  split
  · exact .pure (.done (Expr.like_juxtaposed? region.rel_union hexprs))
  · exact (h 0 s).bind fun e _ he => .pure (.again (List.rel_append hexprs (.cons he .nil)))

end Rules

/-- The rule for an expression makes its tree within the region, from tokens within it. -/
theorem stays_expression (room : Nat) (p : Precedence) (s : State) :
    Stays region s (expression table room p) := by
  -- induction on the room, which is less for the parts of an expression
  induction room generalizing p s with
  | zero => exact ⟨fun _ _ _ h => nomatch h⟩
  | succ room ih =>
    by_cases hkind : s.current.kind = .endOfInput
    · -- an expression takes up a token, and there is none
      refine ⟨fun hs e s' hexpr => ?_⟩
      have hlt := lt_of_expression_ok hexpr
      rw [rest_eq_nil_of_ahead hs hkind] at hlt
      exact absurd hlt (Nat.not_lt_zero _)
    · exact .remember (stays_chain ih hkind p)

/-- All locations in a tree that is read are in each region that the tokens before the end of the
    input are in. -/
theorem has_of_readTokens {settings : Settings} {tokens : List Token} {e? : Option Expr}
    (htokens : ∀ t ∈ tokens.takeWhile (·.kind != .endOfInput), region.holds t.loc)
    (h : readTokens settings tokens = .ok e?) : region.Has e? := by
  obtain ⟨s', hprogram⟩ := exists_program_ok h
  have hahead : region.Ahead (.ofTokens tokens) := by
    intro t ht
    refine ⟨?_, htokens t ht⟩
    simpa using List.mem_takeWhile_imp ht
  have hstays : Stays region (.ofTokens tokens) (program settings) :=
    .iterate (fun _ _ hexprs => (stays_programTurn (stays_expression settings.limit) hexprs).turn)
      .nil
  exact (hstays.ok hahead hprogram).1

end Symbolic.Reader
