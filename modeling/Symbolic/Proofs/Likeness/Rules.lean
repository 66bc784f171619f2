import Symbolic.Proofs.Likeness.Parallel

/-!
# Every rule is parallel to itself

Each rule of the grammar, over steps that read the parts, is parallel to the same rule over other
such steps. What a rule relies on is found here and nowhere else: that it blames a token for what
is wrong with it, that it counts as open what opens, and that it goes on only past a token.

## Key results

- `parallel_leading`, `parallel_trailing`: the forms that start and that extend an expression
- `parallel_chain`: an expression
- `parallel_programTurn`: the expressions of an input
-/

namespace Symbolic.Reader

open Parse

variable {like : Likeness} {table : OperatorTable} {expr : Precedence → Parse Expr}
  {expr' : Nat → Precedence → Parse Expr} {here : Option (Token × Token)} {passed : Prop}
  {depth : Nat} {gains : Expr → Prop} {t t' : Token} {lhs lhs' : Expr} {op : Operator}

/-! ## Elements between commas -/

/-- The rule for one more expression in an element is parallel to itself over other steps for the
    parts. -/
theorem parallel_elementTurn (closer : TokenKind) {factors factors' : List Expr}
    (hfactors : Located.Like like.location factors factors') :
    Parallel like table expr expr' here passed depth depth (Gains table)
      (elementTurn expr closer factors) (fun n => elementTurn (expr' n) closer factors') := by
  unfold elementTurn
  refine .peek fun t t' ht _ => ?_
  rw [like.kind_eq ht]
  split
  · -- a comma or the closing bracket ends the element
    exact .pure (.done (Expr.like_toList (Expr.like_juxtaposed? like.union hfactors))) False.elim
  rename_i hkind
  split
  · exact .unexpected
  split
  · -- another closing bracket is in the way
    have hcloser : t.kind ≠ closer := fun h => hkind (.inr h)
    exact .throw ht (.unmatched hcloser) (.unmatchedDelimiter (like.loc ht))
  · exact .bind (.expr 0) fun e e' he =>
      .pure (.again (List.rel_append hfactors (.cons he .nil))) fun _ => trivial

/-- The rule for an element is parallel to itself over other steps for the parts. -/
theorem parallel_element (closer : TokenKind) :
    Parallel like table expr expr' here passed depth depth (fun _ => True) (element expr closer)
      (fun n => element (expr' n) closer) := by
  unfold element
  exact .bind (.expr 0) fun e e' he =>
    .loop (fun _ _ => parallel_elementTurn closer) (.cons he .nil)

/-- The rule for one more element is parallel to itself over other steps for the parts. -/
theorem parallel_sequenceTurn (closer : TokenKind) {items items' : List Expr}
    (hitems : Located.Like like.location items items') :
    Parallel like table expr expr' here passed depth depth (Gains table)
      (sequenceTurn expr closer items) (fun n => sequenceTurn (expr' n) closer items') := by
  have hadd : ∀ {loc loc'}, like.location loc loc' → Located.Like like.location
      (items ++ [.symbol "Null" loc]) (items' ++ [.symbol "Null" loc']) :=
    fun hloc => List.rel_append hitems (.cons (.symbol hloc) .nil)
  unfold sequenceTurn
  refine .peek fun t t' ht _ => ?_
  rw [like.kind_eq ht]
  split
  · rename_i hcomma
    refine .bind .advance fun loc loc' hloc => .pure (.again (hadd hloc)) fun _ => .inr ?_
    exact ⟨_, rfl, by simp [hcomma]⟩
  split
  · -- nothing at all between brackets is no element
    refine .pure (.done ?_) False.elim
    have hlast := hadd (like.loc ht)
    cases hitems with
    | nil => exact .nil
    | cons => exact hlast
  split
  · exact .unexpected
  · refine .bind (parallel_element closer) fun es es' hes => .peek fun u u' hu _ => ?_
    have hitems' := List.rel_append hitems hes
    rw [like.kind_eq hu]
    split
    · exact .bind .advance fun _ _ _ => .pure (.again hitems') fun _ => .inl trivial
    · exact .pure (.done hitems') fun _ => trivial

/-- The rule for the elements up to a closing bracket is parallel to itself over other steps for the
    parts. -/
theorem parallel_sequence (closer : TokenKind) :
    Parallel like table expr expr' here passed depth depth (fun _ => passed)
      (sequence expr closer) (fun n => sequence (expr' n) closer) :=
  .loop (fun _ _ => parallel_sequenceTurn closer) .nil

/-! ## Leading forms -/

/-- The rule for `(e)` is parallel to itself over other steps for the parts. -/
theorem parallel_group (opens : t.kind.closer?.isSome) :
    Parallel like table expr expr' (some (t, t')) passed depth depth gains (group expr)
      (fun n => group (expr' n)) := by
  unfold group
  refine .bind (.openBracket opens) fun opening opening' hopening => .bind (.expr 0)
    fun e e' he => .bind (.closeBracket _) fun closing closing' hclosing => ?_
  have hloc := like.union hopening hclosing
  cases he with
  | node hhead hchildren => exact .pure (.node hhead hchildren hloc) fun _ => trivial
  | symbol h => exact .pure (.symbol h) fun _ => trivial
  | number h => exact .pure (.number h) fun _ => trivial
  | string h => exact .pure (.string h) fun _ => trivial

/-- The rule for a node over the elements between brackets is parallel to itself over other steps
    for the parts. -/
theorem parallel_bracketed (opens : t.kind.closer?.isSome) (head : String)
    (closer : TokenKind) :
    Parallel like table expr expr' (some (t, t')) passed depth depth gains
      (bracketed table expr head closer) (fun n => bracketed table (expr' n) head closer) := by
  unfold bracketed
  exact .bind (.openBracket opens) fun opening opening' hopening =>
    .bind (parallel_sequence closer) fun items items' hitems => .bind (.closeBracket closer)
      fun closing closing' hclosing =>
        .pure (Expr.like_make hitems (like.union hopening hclosing)) fun _ => trivial

/-- The rule for `-x` is parallel to itself over other steps for the parts. -/
theorem parallel_minus :
    Parallel like table expr expr' here passed depth depth gains (minus table expr op)
      (fun n => minus table (expr' n) op) := by
  unfold minus
  exact .bind .advance fun sign sign' hsign => .bind (.expr _) fun e e' he =>
    .pure (Expr.like_negate he hsign (like.union hsign (Expr.loc_like he))) fun _ => trivial

/-- The rule for `+x` is parallel to itself over other steps for the parts. -/
theorem parallel_plus :
    Parallel like table expr expr' here passed depth depth gains (plus expr op)
      (fun n => plus (expr' n) op) := by
  unfold plus
  refine .bind .advance fun sign sign' hsign => .bind (.expr _) fun e e' he => ?_
  rw [Expr.isParenthesized_eq_of_like he]
  split
  · exact .pure he fun _ => trivial
  · exact .pure (Expr.like_withLoc he (like.union hsign (Expr.loc_like he))) fun _ => trivial

/-- The rule for `?x` is parallel to itself over other steps for the parts. -/
theorem parallel_information :
    Parallel like table expr expr' here passed depth depth gains (information table expr op)
      (fun n => information table (expr' n) op) := by
  unfold information
  refine .bind .advance fun sign sign' hsign => .peek fun u u' hu _ => .bind (.expr _)
    fun e e' he => ?_
  have hnode : ∀ flag, Expr.Like like.location
      (.make table op.head [e, .make table "Rule" [.symbol "LongForm" sign, .symbol flag sign]
        sign] (sign.union e.loc))
      (.make table op.head [e', .make table "Rule" [.symbol "LongForm" sign', .symbol flag sign']
        sign'] (sign'.union e'.loc)) := fun flag =>
    have hoption := Expr.like_make (.cons (.symbol hsign) (.cons (.symbol hsign) .nil)) hsign
    Expr.like_make (.cons he (.cons hoption .nil)) (like.union hsign (Expr.loc_like he))
  dsimp only
  rw [Expr.symbolName?_eq_of_like he]
  split
  · -- the operand of the long form has to be a symbol, or its first token is to blame
    rw [like.kind_eq hu]
    exact .throw_bind hu .unexpected (.unexpectedToken (like.loc hu))
  · exact .pure (hnode _) fun _ => trivial

/-- The rule for `!!x` is parallel to itself over other steps for the parts. -/
theorem parallel_doubleNegation :
    Parallel like table expr expr' here passed depth depth gains (doubleNegation table expr op)
      (fun n => doubleNegation table (expr' n) op) := by
  unfold doubleNegation
  refine .bind .advance fun sign sign' hsign => .bind (.expr _) fun e e' he => ?_
  have hloc := like.union hsign (Expr.loc_like he)
  exact .pure (Expr.like_make (.cons (Expr.like_make (.cons he .nil) hloc) .nil) hloc)
    fun _ => trivial

/-- The rule for `∫ f ⅆ x` is parallel to itself over other steps for the parts. -/
theorem parallel_integral :
    Parallel like table expr expr' here passed depth depth gains (integral table expr op)
      (fun n => integral table (expr' n) op) := by
  unfold integral
  exact .bind .advance fun sign sign' hsign => .bind (.expr _) fun e e' he =>
    .bind (.expect _) fun _ _ _ => .bind (.expr _) fun x x' hx =>
      .pure (Expr.like_make (.cons he (.cons hx .nil)) (like.union hsign (Expr.loc_like hx)))
        fun _ => trivial

/-- The rule for the node of any other prefix operator is parallel to itself over other steps for
    the parts. -/
theorem parallel_prefixedNode :
    Parallel like table expr expr' here passed depth depth gains (prefixedNode table expr op)
      (fun n => prefixedNode table (expr' n) op) := by
  unfold prefixedNode
  exact .bind .advance fun sign sign' hsign => .bind (.expr _) fun e e' he =>
    .pure (Expr.like_make (.cons he .nil) (like.union hsign (Expr.loc_like he))) fun _ => trivial

/-! ## Spans -/

/-- The rule for the end of a span is parallel to itself over other steps for the parts. -/
theorem parallel_spanEnd {sign sign' : Location} (hsign : like.location sign sign') :
    Parallel like table expr expr' here passed depth depth (fun _ => passed) (spanEnd expr op sign)
      (fun n => spanEnd (expr' n) op sign') := by
  unfold spanEnd
  refine .peek fun t t' ht _ => ?_
  rw [like.kind_eq ht]
  split
  · exact .pure (.symbol hsign) id
  · -- the end of a span may be missing
    refine .bind (.attempt (.expr _)) fun stop? stop?' hstop => .pure ?_ id
    cases hstop with
    | some h => exact h
    | none => exact .symbol hsign

/-- The rule for the step of a span is parallel to itself over other steps for the parts. -/
theorem parallel_spanStep? :
    Parallel like table expr expr' here passed depth depth (fun _ => passed) (spanStep? expr op)
      (fun n => spanStep? (expr' n) op) := by
  unfold spanStep?
  refine .peek fun t t' ht _ => ?_
  rw [like.kind_eq ht]
  split
  · exact .attempt (.bind .advance fun _ _ _ => .expr _)
  · exact .pure .none id

/-- The rule for a span from its first mark on is parallel to itself over other steps for the
    parts. -/
theorem parallel_spanFrom (hkind : t.kind ≠ .endOfInput)
    (hlhs : Located.Like like.location lhs lhs') :
    Parallel like table expr expr' (some (t, t')) passed depth depth gains
      (spanFrom table expr lhs op) (fun n => spanFrom table (expr' n) lhs' op) := by
  unfold spanFrom
  refine .bind .advance fun sign sign' hsign => .bind .atFinalEnd ?_
  have hpassed : passed ∨ ∃ u ∈ some (t, t'), u.1.kind ≠ .endOfInput := .inr ⟨_, rfl, hkind⟩
  have hloc := like.union (Expr.loc_like hlhs) hsign
  -- both inputs end here, or neither does
  rintro isEnd _ rfl
  split
  · exact .pure (Expr.like_make (.cons hlhs (.cons (.symbol hsign) .nil)) hloc) fun _ => hpassed
  refine .bind (parallel_spanEnd hsign) fun stop stop' hstop => .bind parallel_spanStep?
    fun step? step?' hstep => ?_
  cases hstep with
  | some h =>
    -- both spans have a step
    exact .pure (Expr.like_make (.cons hlhs (.cons hstop (.cons h .nil)))
      (like.union (Expr.loc_like hlhs) (Expr.loc_like h))) fun _ => hpassed
  | none =>
    exact .pure (Expr.like_make (.cons hlhs (.cons hstop .nil))
      -- neither has one
      (like.union (like.union (Expr.loc_like hlhs) (Expr.loc_like hstop)) hsign)) fun _ => hpassed

/-- The rule for a span without a start is parallel to itself over other steps for the parts. -/
theorem parallel_leadingSpan (hkind : t.kind ≠ .endOfInput) :
    Parallel like table expr expr' (some (t, t')) passed depth depth gains
      (leadingSpan table expr op) (fun n => leadingSpan table (expr' n) op) := by
  unfold leadingSpan
  exact .peek_here fun ht =>
    parallel_spanFrom hkind (Expr.like_integer 1 (like.empty_start (like.loc ht)))

/-- The rule for a prefix operator with its operands is parallel to itself over other steps for the
    parts. -/
theorem parallel_prefixed (hop : op.kind = t.kind) :
    Parallel like table expr expr' (some (t, t')) passed depth depth gains
      (prefixed table expr op) (fun n => prefixed table (expr' n) op) := by
  unfold prefixed
  split
  · exact parallel_minus
  · exact parallel_plus
  · exact parallel_information
  · exact parallel_information
  · exact parallel_doubleNegation
  · exact parallel_integral
  · rename_i hspan
    exact parallel_leadingSpan (by simp [← hop, hspan])
  · exact parallel_prefixedNode

/-- The rule for an atom is parallel to itself over other steps for the parts. -/
theorem parallel_atom (hkind : t.kind.isAtom = true) :
    Parallel like table expr expr' (some (t, t')) passed depth depth gains (atom table)
      (fun _ => atom table) := by
  unfold atom
  refine .peek_here fun ht => .result ht ?_ ?_ fun e e' he => .bind .advance fun _ _ _ =>
    .pure he fun _ => .inr ⟨_, rfl, ?_⟩
  · intro e he
    rcases Expr.error_of_atom he with rfl | ⟨hnumber, rfl⟩
    · exact .unexpected
    · exact .numeral hnumber
  · -- the kind and the text of the token decide what it stands for
    have htext := like.text_eq ht hkind
    have hsame := like.kind_eq ht
    obtain ⟨kind, text, loc⟩ := t
    obtain ⟨kind', text', loc'⟩ := t'
    obtain rfl : text' = text := htext
    obtain rfl : kind' = kind := hsame
    exact Expr.like_atom _ _ (like.loc ht)
  · show t.kind ≠ .endOfInput
    rintro hend
    rw [hend] at hkind
    cases hkind

/-- The rule for a leading form is parallel to itself over other steps for the parts. -/
theorem parallel_leading :
    Parallel like table expr expr' here passed depth depth gains (leading table expr)
      (fun n => leading table (expr' n)) := by
  unfold leading
  refine .peek fun t t' ht _ => ?_
  -- the kind of a token decides which form it is, so that is the same for both
  rw [like.kind_eq ht]
  split
  · rename_i op hfound
    exact parallel_prefixed (Prod.mk.inj (OperatorTable.key_of_lookup? hfound)).1
  split
  · rename_i hkind
    exact parallel_group (by simp [hkind, TokenKind.closer?])
  · rename_i hkind
    exact parallel_bracketed (by simp [hkind, TokenKind.closer?]) _ _
  · rename_i hkind
    exact parallel_bracketed (by simp [hkind, TokenKind.closer?]) _ _
  split
  · rename_i hatom
    exact parallel_atom hatom
  · exact .unexpected

/-! ## Trailing forms -/

/-- The rule for the node of an infix operator is parallel to itself over other steps for the
    parts. -/
theorem parallel_infixedNode (found : table.lookup? t.kind .infixed = some op)
    (hlhs : Located.Like like.location lhs lhs') :
    Parallel like table expr expr' (some (t, t')) passed depth depth gains
      (infixedNode table expr lhs op) (fun n => infixedNode table (expr' n) lhs' op) := by
  obtain ⟨hkind, -⟩ := Prod.mk.inj (OperatorTable.key_of_lookup? found)
  have hnode : ∀ {rhs rhs'}, Expr.Like like.location rhs rhs' → Expr.Like like.location
      (.make table op.head [lhs, rhs] (lhs.loc.union rhs.loc))
      (.make table op.head [lhs', rhs'] (lhs'.loc.union rhs'.loc)) := fun hrhs =>
    Expr.like_make (.cons hlhs (.cons hrhs .nil))
      (like.union (Expr.loc_like hlhs) (Expr.loc_like hrhs))
  unfold infixedNode isForbiddenChain
  rw [Expr.isOpenNode_eq_of_like hlhs]
  split
  · -- an operator that does not chain is blamed for the chain
    rename_i hchain
    have hop : op.associativity = .nonAssociative := by simp_all
    rw [hkind]
    exact .peek_here fun ht =>
      .throw_bind ht (.chained found hop) (.nonAssociativeChain (like.loc ht))
  · exact .bind .advance fun _ _ _ => .bind (.expr _) fun rhs rhs' hrhs =>
      .pure (hnode hrhs) fun _ => trivial

/-- The rule for the node of a postfix operator is parallel to itself over other steps for the
    parts. -/
theorem parallel_postfixedNode (hlhs : Located.Like like.location lhs lhs') :
    Parallel like table expr expr' (some (t, t')) passed depth depth
      (fun _ => t.kind ≠ .endOfInput) (postfixedNode table lhs op)
      (fun _ => postfixedNode table lhs' op) := by
  unfold postfixedNode
  exact .bind .advance fun sign sign' hsign =>
    .pure (Expr.like_make (.cons hlhs .nil) (like.union (Expr.loc_like hlhs) hsign))
      fun hkind => .inr ⟨_, rfl, hkind⟩

/-- The rule for `a - b` is parallel to itself over other steps for the parts. -/
theorem parallel_difference (hlhs : Located.Like like.location lhs lhs') :
    Parallel like table expr expr' here passed depth depth gains
      (difference table expr lhs op) (fun n => difference table (expr' n) lhs' op) := by
  unfold difference
  refine .bind .advance fun sign sign' hsign => .bind (.expr _) fun rhs rhs' hrhs => ?_
  have hloc := like.union hsign (Expr.loc_like hrhs)
  exact .pure (Expr.like_make (.cons hlhs (.cons (Expr.like_negate hrhs hsign hloc) .nil))
    (like.union (Expr.loc_like hlhs) hloc)) fun _ => trivial

/-- The rule for `a / b` is parallel to itself over other steps for the parts. -/
theorem parallel_quotient (hlhs : Located.Like like.location lhs lhs') :
    Parallel like table expr expr' here passed depth depth gains
      (quotient table expr lhs op) (fun n => quotient table (expr' n) lhs' op) := by
  unfold quotient
  refine .bind .advance fun sign sign' hsign => .bind (.expr _) fun rhs rhs' hrhs => ?_
  have hreciprocal : Expr.Like like.location
      (.make table "Power" [rhs, .integer (-1) sign] rhs.loc)
      (.make table "Power" [rhs', .integer (-1) sign'] rhs'.loc) :=
    Expr.like_make (.cons hrhs (.cons (Expr.like_integer (-1) hsign) .nil)) (Expr.loc_like hrhs)
  exact .pure (Expr.like_make (.cons hlhs (.cons hreciprocal .nil))
    (like.union (Expr.loc_like hlhs) (Expr.loc_like hrhs))) fun _ => trivial

/-- The rule for a comparison is parallel to itself over other steps for the parts. -/
theorem parallel_comparison (hlhs : Located.Like like.location lhs lhs') :
    Parallel like table expr expr' here passed depth depth gains
      (comparison table expr lhs op) (fun n => comparison table (expr' n) lhs' op) := by
  unfold comparison
  exact .bind .advance fun sign sign' hsign => .bind (.expr _) fun rhs rhs' hrhs =>
    .pure (Expr.like_compare hlhs _ hsign hrhs
      (like.union (Expr.loc_like hlhs) (Expr.loc_like hrhs))) fun _ => trivial

/-- The rule for expressions side by side is parallel to itself over other steps for the parts. -/
theorem parallel_juxtaposition (p : Precedence) (hlhs : Located.Like like.location lhs lhs') :
    Parallel like table expr expr' here passed depth depth (Gains table)
      (juxtaposition table expr lhs p) (fun n => juxtaposition table (expr' n) lhs' p) := by
  unfold juxtaposition
  refine .peek fun t t' ht _ => ?_
  rw [like.kind_eq ht]
  split
  · exact .pure (.done hlhs) False.elim
  split
  · exact .pure (.done hlhs) False.elim
  · exact .bind (.expr _) fun rhs rhs' hrhs =>
      .pure (.again (Expr.like_make (.cons hlhs (.cons hrhs .nil))
        (like.union (Expr.loc_like hlhs) (Expr.loc_like hrhs)))) fun _ => trivial

/-! ## Calls and parts -/

/-- The rule for a call or a part is parallel to itself over other steps for the parts. -/
theorem parallel_callOrPart (opens : t.kind.closer?.isSome)
    (hlhs : Located.Like like.location lhs lhs') :
    Parallel like table expr expr' (some (t, t')) passed depth depth gains
      (callOrPart table expr lhs op) (fun n => callOrPart table (expr' n) lhs' op) := by
  unfold callOrPart
  refine .bind (.openBracket opens) fun _ _ _ => .peek fun u u' hu _ => ?_
  rw [like.kind_eq hu]
  split
  · -- a second bracket makes it a part
    unfold part
    exact .bind .advance fun _ _ _ => .bind (parallel_sequence _) fun indices indices' hindices =>
      .bind (.expect _) fun _ _ _ => .bind (.closeBracket _) fun closing closing' hclosing =>
        .pure (Expr.like_make (.cons hlhs hindices)
          (like.union (Expr.loc_like hlhs) hclosing)) fun _ => .inl trivial
  · unfold call
    exact .bind (parallel_sequence _) fun args args' hargs => .bind (.closeBracket _)
      fun closing closing' hclosing => .pure (Expr.like_parenthesize
        (Expr.like_apply hlhs hargs (like.union (Expr.loc_like hlhs) hclosing))) fun _ => trivial

/-! ## Operators that apply -/

/-- The rule for `f @ x` is parallel to itself over other steps for the parts. -/
theorem parallel_prefixApplication (hlhs : Located.Like like.location lhs lhs') :
    Parallel like table expr expr' here passed depth depth gains
      (prefixApplication expr lhs op) (fun n => prefixApplication (expr' n) lhs' op) := by
  unfold prefixApplication
  exact .bind .advance fun _ _ _ => .bind (.expr _) fun rhs rhs' hrhs =>
    .pure (Expr.like_apply hlhs (.cons hrhs .nil)
      (like.union (Expr.loc_like hlhs) (Expr.loc_like hrhs))) fun _ => trivial

/-- The rule for `x // f` is parallel to itself over other steps for the parts. -/
theorem parallel_postfixApplication (hlhs : Located.Like like.location lhs lhs') :
    Parallel like table expr expr' here passed depth depth gains
      (postfixApplication expr lhs op) (fun n => postfixApplication (expr' n) lhs' op) := by
  unfold postfixApplication
  exact .bind .advance fun _ _ _ => .bind (.expr _) fun rhs rhs' hrhs =>
    .pure (Expr.like_apply hrhs (.cons hlhs .nil)
      (like.union (Expr.loc_like hlhs) (Expr.loc_like hrhs))) fun _ => trivial

/-- The rule for `a ~ f ~ b` is parallel to itself over other steps for the parts. -/
theorem parallel_infixApplication (hlhs : Located.Like like.location lhs lhs') :
    Parallel like table expr expr' here passed depth depth gains
      (infixApplication expr lhs op) (fun n => infixApplication (expr' n) lhs' op) := by
  unfold infixApplication
  exact .bind .advance fun _ _ _ => .bind (.expr _) fun f f' hf => .bind (.expect _)
    fun _ _ _ => .bind (.expr _) fun rhs rhs' hrhs =>
      .pure (Expr.like_apply hf (.cons hlhs (.cons hrhs .nil))
        (like.union (Expr.loc_like hlhs) (Expr.loc_like hrhs))) fun _ => trivial

/-- The rule for `f @@@ x` is parallel to itself over other steps for the parts. -/
theorem parallel_levelApplication (hlhs : Located.Like like.location lhs lhs') :
    Parallel like table expr expr' here passed depth depth gains
      (levelApplication table expr lhs op) (fun n => levelApplication table (expr' n) lhs' op) := by
  unfold levelApplication
  refine .bind .advance fun sign sign' hsign => .bind (.expr _) fun rhs rhs' hrhs => ?_
  have hlevel : Expr.Like like.location (.make table "List" [.integer 1 sign] sign)
      (.make table "List" [.integer 1 sign'] sign') :=
    Expr.like_make (.cons (Expr.like_integer 1 hsign) .nil) hsign
  exact .pure (Expr.like_make (.cons hlhs (.cons hrhs (.cons hlevel .nil)))
    (like.union (Expr.loc_like hlhs) (Expr.loc_like hrhs))) fun _ => trivial

/-- The rule for a pure function is parallel to itself over other steps for the parts. -/
theorem parallel_pureFunction (hkind : t.kind = .function)
    (hlhs : Located.Like like.location lhs lhs') :
    Parallel like table expr expr' (some (t, t')) passed depth depth gains
      (pureFunction table expr lhs op) (fun n => pureFunction table (expr' n) lhs' op) := by
  unfold pureFunction
  refine .peek_here fun ht => .bind .advance fun sign sign' hsign => ?_
  simp only [like.ampersand ht hkind]
  split
  · exact .pure (Expr.like_make (.cons hlhs .nil) (like.union (Expr.loc_like hlhs) hsign))
      fun _ => .inr ⟨_, rfl, by simp [hkind]⟩
  · exact .bind (.expr _) fun body body' hbody =>
      .pure (Expr.like_make (.cons hlhs (.cons hbody .nil))
        (like.union (Expr.loc_like hlhs) (Expr.loc_like hbody))) fun _ => trivial

/-! ## Derivatives and messages -/

/-- Whether a turn that takes one more mark of a kind has passed over one: if it goes on it has,
    and it does not end where a mark is known to be next. -/
def GainsMark (kind : TokenKind) (here : Option (Token × Token)) {α β : Type} : Turn α β → Prop
  | .again _ => kind ≠ .endOfInput
  | .done _ => ∃ u ∈ here, u.1.kind = kind

/-- A loop over marks takes at least the one that is next. -/
theorem parallel_marks {α β : Type} [Located α] [Located β] {kind : TokenKind}
    {turn : α → Parse (Turn α β)} {a a' : α} (hkind : t.kind = kind)
    (hturn : ∀ {here passed} {b b' : α}, Located.Like like.location b b' →
      Parallel like table expr expr' here passed depth depth (GainsMark kind here) (turn b)
        (fun _ => turn b')) (h : Located.Like like.location a a') :
    Parallel like table expr expr' (some (t, t')) passed depth depth (fun _ => True)
      (iterate turn a) (fun _ => iterate turn a') := by
  refine .iterate (.imp (hturn h) fun outcome hgains => ?_) fun b b' hb => hturn hb
  cases outcome with
  | again => exact hgains.elim
  | done => exact ⟨_, rfl, hkind⟩

/-- The rule for one more mark of a derivative is parallel to itself over other steps for the
    parts. -/
theorem parallel_derivativeTurn {marks marks' : Nat × Location}
    (hmarks : Located.Like like.location marks marks') :
    Parallel like table expr expr' here passed depth depth (GainsMark op.kind here)
      (derivativeTurn op marks) (fun _ => derivativeTurn op marks') := by
  unfold derivativeTurn
  refine .peek fun t t' ht known => ?_
  rw [like.kind_eq ht]
  split
  · rename_i hkind
    -- one more mark
    have hcount : marks.1 + 1 = marks'.1 + 1 := congrArg (· + 1) hmarks.1
    exact .bind .advance fun loc loc' hloc =>
      .pure (.again ⟨hcount, hloc⟩) fun hend => .inr ⟨_, rfl, hkind ▸ hend⟩
  · rename_i hkind
    -- no mark comes next, although one was looked at before
    refine .pure (.done hmarks) ?_
    rintro ⟨u, hu, hmark⟩
    obtain rfl := known u hu
    exact absurd hmark hkind

/-- The rule for `f''` is parallel to itself over other steps for the parts. -/
theorem parallel_derivative (hkind : t.kind = op.kind)
    (hlhs : Located.Like like.location lhs lhs') :
    Parallel like table expr expr' (some (t, t')) passed depth depth gains
      (derivative table lhs op) (fun _ => derivative table lhs' op) := by
  unfold derivative
  refine .peek_here fun ht =>
    .bind (parallel_marks hkind parallel_derivativeTurn ⟨rfl, like.loc ht⟩) ?_
  rintro ⟨order, last⟩ ⟨order', last'⟩ ⟨hsame, hlast⟩
  obtain rfl : order = order' := hsame
  have hloc := like.union (like.loc ht) hlast
  exact .pure (Expr.like_apply (Expr.like_make (.cons (Expr.like_integer _ hloc) .nil) hloc)
    (.cons hlhs .nil) (like.union (Expr.loc_like hlhs) hlast)) fun _ => trivial

/-- The rule for one more tag of a message is parallel to itself over other steps for the parts. -/
theorem parallel_messageTurn {message message' : List Expr × Location}
    (hmessage : Located.Like like.location message message') :
    Parallel like table expr expr' here passed depth depth (GainsMark op.kind here)
      (messageTurn op message) (fun _ => messageTurn op message') := by
  unfold messageTurn
  refine .peek fun t t' ht known => ?_
  rw [like.kind_eq ht]
  split
  · rename_i hkind
    refine .bind .advance fun _ _ _ => .peek fun u u' hu _ => ?_
    rw [like.kind_eq hu]
    split
    · rename_i htag
      -- a tag keeps its text, so it is the same name or string
      have htext : u'.text = u.text := by
        refine like.text_eq hu ?_
        rcases htag with h | h <;> rw [h] <;> rfl
      have hmessage' : Located.Like like.location (message.1 ++ [.string u.text u.loc])
          (message'.1 ++ [.string u'.text u'.loc]) :=
        List.rel_append hmessage.1 (.cons (htext ▸ .string (like.loc hu)) .nil)
      exact .bind .advance fun loc loc' hloc =>
        .pure (.again ⟨hmessage', like.union hmessage.2 hloc⟩)
          fun hend => .inl (.inr ⟨_, rfl, hkind ▸ hend⟩)
    · exact .unexpected
  · -- the operator itself would have been a mark
    rename_i hkind
    refine .pure (.done hmessage) ?_
    rintro ⟨u, hu, hmark⟩
    obtain rfl := known u hu
    exact absurd hmark hkind

/-- The rule for `a::b` is parallel to itself over other steps for the parts. -/
theorem parallel_messageName (hkind : t.kind = op.kind)
    (hlhs : Located.Like like.location lhs lhs') :
    Parallel like table expr expr' (some (t, t')) passed depth depth gains
      (messageName table lhs op) (fun _ => messageName table lhs' op) := by
  unfold messageName
  exact .bind (parallel_marks hkind parallel_messageTurn
      ⟨.cons hlhs .nil, Expr.loc_like hlhs⟩) fun message message' hmessage =>
    .pure (Expr.like_make hmessage.1 hmessage.2) fun _ => trivial

/-! ## Patterns and statements -/

/-- The rule for `x:p` or `p:v` is parallel to itself over other steps for the parts. -/
theorem parallel_colon (p : Precedence) (hlhs : Located.Like like.location lhs lhs') :
    Parallel like table expr expr' here passed depth depth (Gains table)
      (colon table expr lhs op p) (fun n => colon table (expr' n) lhs' op p) := by
  unfold colon colonMeaning?
  rw [Expr.symbolName?_eq_of_like hlhs, Expr.headName?_eq_of_like hlhs]
  split
  · exact .pure (.done hlhs) False.elim
  split
  · exact .pure (.done hlhs) False.elim
  · exact .bind .advance fun _ _ _ => .bind (.expr _) fun rhs rhs' hrhs =>
      .pure (.again (Expr.like_make (.cons hlhs (.cons hrhs .nil))
        (like.union (Expr.loc_like hlhs) (Expr.loc_like hrhs)))) fun _ => trivial

/-- The rule for `a; b` is parallel to itself over other steps for the parts. -/
theorem parallel_compound (hkind : t.kind ≠ .endOfInput)
    (hlhs : Located.Like like.location lhs lhs') :
    Parallel like table expr expr' (some (t, t')) passed depth depth gains
      (compound table expr lhs op) (fun n => compound table (expr' n) lhs' op) := by
  have hnode : ∀ {rhs? rhs?' : Option Expr} {sign sign'},
      Option.Rel (Expr.Like like.location) rhs? rhs?' → like.location sign sign' →
      Expr.Like like.location
        (.make table op.head [lhs, rhs?.getD (.symbol "Null" sign)]
          (lhs.loc.union (rhs?.getD (.symbol "Null" sign)).loc))
        (.make table op.head [lhs', rhs?'.getD (.symbol "Null" sign')]
          (lhs'.loc.union (rhs?'.getD (.symbol "Null" sign')).loc)) := by
    intro rhs? rhs?' sign sign' hrhs hsign
    have h : Expr.Like like.location (rhs?.getD (.symbol "Null" sign))
        (rhs?'.getD (.symbol "Null" sign')) :=
      Expr.like_getD hrhs (.symbol hsign)
    exact Expr.like_make (.cons hlhs (.cons h .nil))
      (like.union (Expr.loc_like hlhs) (Expr.loc_like h))
  have hpassed : passed ∨ ∃ u ∈ some (t, t'), u.1.kind ≠ .endOfInput := .inr ⟨_, rfl, hkind⟩
  unfold compound
  refine .bind .advance fun sign sign' hsign => .bind .atFinalEnd ?_
  rintro isEnd _ rfl
  dsimp only
  split
  · exact .pure (hnode .none hsign) fun _ => hpassed
  · -- a right side that cannot be read is left out
    exact .bind (.attempt (.expr _)) fun rhs? rhs?' hrhs =>
      .pure (hnode hrhs hsign) fun _ => hpassed

/-- The rule for `f /: p = v` is parallel to itself over other steps for the parts. -/
theorem parallel_tagSet (hlhs : Located.Like like.location lhs lhs') :
    Parallel like table expr expr' here passed depth depth gains
      (tagSet table expr lhs op) (fun n => tagSet table (expr' n) lhs' op) := by
  unfold tagSet
  refine .bind .advance fun _ _ _ => .bind (.expr _) fun pattern pattern' hpattern =>
    .peek fun t t' ht _ => ?_
  rw [like.kind_eq ht]
  split
  · rename_i hnone
    -- what is missing is no sign of an assignment, so nothing is gained
    refine .missing fun hset => ?_
    simp [hset, tagHead?] at hnone
  refine .bind .advance fun sign sign' hsign => ?_
  split
  · exact .pure (Expr.like_make (.cons hlhs (.cons hpattern .nil))
      (like.union (Expr.loc_like hlhs) hsign)) fun _ => .inl trivial
  · exact .bind (.expr _) fun value value' hvalue =>
      .pure (Expr.like_make (.cons hlhs (.cons hpattern (.cons hvalue .nil)))
        (like.union (Expr.loc_like hlhs) (Expr.loc_like hvalue))) fun _ => trivial

/-! ## All trailing forms -/

/-- The rule for a span behind its start is parallel to itself over other steps for the parts. -/
theorem parallel_trailingSpan (hkind : t.kind ≠ .endOfInput)
    (hlhs : Located.Like like.location lhs lhs') :
    Parallel like table expr expr' (some (t, t')) passed depth depth (Gains table)
      (trailingSpan table expr lhs op) (fun n => trailingSpan table (expr' n) lhs' op) := by
  unfold trailingSpan
  rw [Expr.isOpenNode_eq_of_like hlhs]
  split
  · exact .pure (.done hlhs) False.elim
  · exact .bind (parallel_spanFrom hkind hlhs) fun e e' he => .pure (.again he) fun _ => trivial

/-- A form that extends an expression is one more turn. -/
theorem Parallel.again {m : Parse Expr} {m' : Nat → Parse Expr}
    (h : Parallel like table expr expr' here passed depth depth (fun _ => True) m m') :
    Parallel like table expr expr' here passed depth depth (Gains table)
      ((Turn.again <$> m : Parse (Turn Expr Expr))) (fun n => Turn.again <$> m' n) :=
  h.map (fun _ _ h => .again h) fun _ _ => trivial

/-- The rule for any form that extends an operand is parallel to itself over other steps for the
    parts. -/
theorem parallel_extended (found : table.trailing? t.kind = some op)
    (hlhs : Located.Like like.location lhs lhs') {kind : TokenKind} (hkind : t.kind = kind) :
    Parallel like table expr expr' (some (t, t')) passed depth depth (Gains table)
      (extended table expr lhs op kind) (fun n => extended table (expr' n) lhs' op kind) := by
  obtain ⟨-, hop, -⟩ := OperatorTable.mem_of_trailing? found
  unfold extended
  split
  · exact .again (parallel_messageName hop.symm hlhs)
  · exact .again (parallel_callOrPart (by rw [hkind]; rfl) hlhs)
  · exact .again (parallel_derivative hop.symm hlhs)
  · exact .again (parallel_difference hlhs)
  · exact .again (parallel_quotient hlhs)
  -- the six comparisons share one rule
  iterate 6 exact .again (parallel_comparison hlhs)
  · exact .again (parallel_prefixApplication hlhs)
  · exact .again (parallel_postfixApplication hlhs)
  · exact .again (parallel_infixApplication hlhs)
  · exact .again (parallel_levelApplication hlhs)
  · exact .again (parallel_pureFunction hkind hlhs)
  · exact .again (parallel_compound (by simp [hkind]) hlhs)
  · exact parallel_trailingSpan (by simp [hkind]) hlhs
  · exact .again (parallel_tagSet hlhs)
  have hlookup : table.lookup? t.kind op.fixity = some op :=
    OperatorTable.lookup?_of_trailing? found
  split
  · rename_i hfixity
    exact .again (parallel_infixedNode (hfixity ▸ hlookup) hlhs)
  · -- only here may the end of the input be taken for an operator
    rename_i hfixity
    refine .map (parallel_postfixedNode hlhs) (fun _ _ h => .again h) fun _ hnone hend => ?_
    rw [hfixity, hend] at hlookup
    cases hlookup.symm.trans hnone
  · exact .pure (.done hlhs) False.elim
  · exact .pure (.done hlhs) False.elim

/-- The rule for what extends an operand or ends it is parallel to itself over other steps for the
    parts. -/
theorem parallel_trailing (p : Precedence) (hlhs : Located.Like like.location lhs lhs') :
    Parallel like table expr expr' here passed depth depth (Gains table)
      (trailing table expr p lhs) (fun n => trailing table (expr' n) p lhs') := by
  unfold trailing
  refine .peek fun t t' ht _ => ?_
  -- both readers see a token of the same kind, and so the same operator
  rw [like.kind_eq ht]
  split
  · exact parallel_juxtaposition p hlhs
  rename_i op found
  split
  · exact parallel_colon p hlhs
  split
  · exact .pure (.done hlhs) False.elim
  · exact parallel_extended found hlhs rfl

/-! ## Expressions and inputs -/

/-- The rule for a leading form with all that extends it is parallel to itself over other steps for
    the parts. -/
theorem parallel_chain (p : Precedence) :
    Parallel like table expr expr' here passed depth depth (fun _ => True) (chain table expr p)
      (fun n => chain table (expr' n) p) := by
  unfold chain
  exact .bind parallel_leading fun e e' he => .loop (fun _ _ => parallel_trailing p) he

/-- The rule for one more expression of an input is parallel to itself over other steps for the
    parts. -/
theorem parallel_programTurn {exprs exprs' : List Expr}
    (hexprs : Located.Like like.location exprs exprs') :
    Parallel like table expr expr' here passed depth depth (Gains table)
      (programTurn expr exprs) (fun n => programTurn (expr' n) exprs') := by
  unfold programTurn
  refine .peek fun t t' ht _ => ?_
  rw [like.kind_eq ht]
  split
  · exact .pure (.done (Expr.like_juxtaposed? like.union hexprs)) False.elim
  · exact .bind (.expr 0) fun e e' he =>
      .pure (.again (List.rel_append hexprs (.cons he .nil))) fun _ => trivial

end Symbolic.Reader
