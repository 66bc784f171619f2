import Symbolic.Proofs.Reader.Paired
import Symbolic.Proofs.Reader.Success

/-!
# Every rule is paired with itself

With the standard operators each rule of the grammar over one way of reading expressions is paired
with the same rule over any other.

## Key results

- `paired_leading`, `paired_trailing`: the forms that start and that extend an expression
- `paired_chain`: an expression
-/

namespace Symbolic

/-- Taking in the same location twice makes no difference. -/
theorem Location.union_union_self (a b : Location) : (a.union b).union b = a.union b := by
  have hmin (a b : UInt32) : min a b = if a ≤ b then a else b := rfl
  have hmax (a b : UInt32) : max a b = if a ≤ b then b else a := rfl
  simp only [Location.union, hmin, hmax]
  grind

namespace Reader

open Parse

variable {expr : Precedence → Parse Expr} {expr' : Nat → Precedence → Parse Expr}
  {α : Type}

/-! ## Where an element ends -/

/-- What reads nothing ends alike, wherever the element ends. -/
theorem endsAlike_pure (v : α) : EndsAlike expr' (pure v) fun _ => pure v :=
  fun _ _ _ _ _ => .inl ⟨v, rfl, fun _ _ => rfl⟩

/-- A token that is unexpected leaves an attempt free to go back. -/
theorem isRecoverable_unexpected (s : State) : s.unexpected.isRecoverable = true := by
  unfold State.unexpected State.faultAt
  split
  · cases s.brackets <;> rfl
  · rfl

/-- So does a token that is missing. -/
theorem isRecoverable_missing (s : State) (kind : TokenKind) :
    (s.missing kind).isRecoverable = true := by
  unfold State.missing State.faultAt
  split
  · cases s.brackets <;> rfl
  · rfl

/-- Going back to the place where the reader is changes nothing. -/
theorem rewind_mark (s : State) : s.rewind s.mark = s := by
  simp [State.rewind, State.mark]

/-- Where no expression can be read, an attempt finds none and leaves the reader where it is. -/
theorem attempt_of_barred {t : State} (h : Barred expr t) (p : Precedence) :
    (expr p).attempt t = .ok none t := by
  obtain ⟨e, he, herror⟩ := h p
  unfold Parse.attempt
  rw [herror]
  simp only [he, if_true, rewind_mark]

/-- A token that is unexpected where the one element ends is so where the other does. -/
theorem endsAlike_unexpected :
    EndsAlike expr' (unexpected : Parse α) fun _ => unexpected :=
  fun s t _ _ _ => .inr ⟨s.unexpected, t.unexpected, isRecoverable_unexpected s,
    isRecoverable_unexpected t, rfl, fun _ => rfl⟩

/-- So is a token that is missing there. -/
theorem endsAlike_missing (kind : TokenKind) :
    EndsAlike expr' (missing kind : Parse α) fun _ => missing kind :=
  fun s t _ _ _ => .inr ⟨s.missing kind, t.missing kind, isRecoverable_missing s kind,
    isRecoverable_missing t kind, rfl, fun _ => rfl⟩

/-! ## Elements between commas -/

/-- The rule for one more expression in an element is paired with itself over another way of reading
    the parts. -/
theorem paired_elementTurn {level : Level} (hlevel : level ≠ .zero) (closer : TokenKind)
    (factors : List Expr) :
    Paired expr expr' .anywhere level level (elementTurn expr closer factors) fun room =>
      elementTurn (expr' room) closer factors := by
  unfold elementTurn
  refine .peek (fun token _ => ?_) fun _ hzero => absurd hzero hlevel
  split
  · exact .pure _
  split
  · exact .unexpected
  split
  · rename_i hend _
    exact .throw hend rfl
  · exact .bind (.expr 0) fun e => .pure _

/-- The rule for an element is paired with itself over another way of reading the parts. -/
theorem paired_element {level : Level} (hlevel : level ≠ .zero) {place : Place}
    (closer : TokenKind) :
    Paired expr expr' place level level (element expr closer) fun room =>
      element (expr' room) closer := by
  unfold element
  exact .bind (.expr 0) fun e => .iterate (paired_elementTurn hlevel closer) _

/-- The rule for one more element is paired with itself over another way of reading the parts. -/
theorem paired_sequenceTurn {level : Level} (hlevel : level ≠ .zero) (closer : TokenKind)
    (items : List Expr) :
    Paired expr expr' .anywhere level level (sequenceTurn expr closer items) fun room =>
      sequenceTurn (expr' room) closer items := by
  -- within brackets neither side can come to its end, so both see the same token
  have hcomma : TokenKind.comma.isPlain = true := rfl
  unfold sequenceTurn
  refine .peek (fun token _ => ?_) fun _ hzero => absurd hzero hlevel
  split
  · rename_i hkind
    exact .bind (.advance (hkind ▸ hcomma)) fun loc => .pure _
  split
  · exact .pure _
  split
  · exact .unexpected
  · -- an element is read on both sides, and then a comma or the closing bracket
    refine .bind (paired_element hlevel closer) fun es => .peek (fun next _ => ?_)
      fun _ hzero => absurd hzero hlevel
    split
    · rename_i hkind
      exact .bind (.advance (hkind ▸ hcomma)) fun loc => .pure _
    · exact .pure _

/-- The rule for the elements up to a closing bracket is paired with itself over another way of
    reading the parts. -/
theorem paired_sequence {level : Level} (hlevel : level ≠ .zero) {place : Place}
    (closer : TokenKind) :
    Paired expr expr' place level level (sequence expr closer) fun room =>
      sequence (expr' room) closer :=
  .iterate (paired_sequenceTurn hlevel closer) []

/-! ## Leading forms -/

/-- The rule for `(e)` is paired with itself over another way of reading the parts. -/
theorem paired_group {kind : TokenKind} (hopens : kind.closer? = some .rightParen) :
    Paired expr expr' (.at kind) .zero .zero (group expr) fun room => group (expr' room) := by
  unfold group
  refine .bind (.openBracket hopens) fun opening => .bind (.expr 0) fun e =>
    .bind (.closeBracket rfl) fun closing => ?_
  split <;> exact .pure _

/-- The rule for a node over the elements between brackets is paired with itself over another way of
    reading the parts. -/
theorem paired_bracketed {kind closer : TokenKind} (hopens : kind.closer? = some closer)
    (head : String) :
    Paired expr expr' (.at kind) .zero .zero (bracketed .standard expr head closer) fun room =>
      bracketed .standard (expr' room) head closer := by
  unfold bracketed
  exact .bind (.openBracket hopens) fun opening =>
    .bind (paired_sequence (Level.opened_ne_zero _ _) closer) fun items =>
      .bind (.closeBracket (balance_of_closer? hopens).2) fun closing => .pure _

section Operators

variable {kind : TokenKind} (hplain : kind.isPlain = true)
include hplain

/-- The rule for `-x` is paired with itself over another way of reading the parts. -/
theorem paired_minus (op : Operator) :
    Paired expr expr' (.at kind) .zero .zero (minus .standard expr op) fun room =>
      minus .standard (expr' room) op := by
  unfold minus
  exact .bind (.advance hplain) fun sign => .bind (.expr _) fun operand => .pure _

/-- The rule for `+x` is paired with itself over another way of reading the parts. -/
theorem paired_plus (op : Operator) :
    Paired expr expr' (.at kind) .zero .zero (plus expr op) fun room => plus (expr' room) op := by
  unfold plus
  refine .bind (.advance hplain) fun sign => .bind (.expr _) fun operand => ?_
  split <;> exact .pure _

/-- The rule for `!!x` is paired with itself over another way of reading the parts. -/
theorem paired_doubleNegation (op : Operator) :
    Paired expr expr' (.at kind) .zero .zero (doubleNegation .standard expr op) fun room =>
      doubleNegation .standard (expr' room) op := by
  unfold doubleNegation
  exact .bind (.advance hplain) fun sign => .bind (.expr _) fun operand => .pure _

/-- The rule for `∫ f ⅆ x` is paired with itself over another way of reading the parts. -/
theorem paired_integral (op : Operator) :
    Paired expr expr' (.at kind) .zero .zero (integral .standard expr op) fun room =>
      integral .standard (expr' room) op := by
  unfold integral
  exact .bind (.advance hplain) fun sign => .bind (.expr _) fun integrand =>
    .bind (.expect rfl (by decide)) fun _ => .bind (.expr _) fun argument => .pure _

/-- The rule for `?x` is paired with itself over another way of reading the parts. -/
theorem paired_information (op : Operator) :
    Paired expr expr' (.at kind) .zero .zero (information .standard expr op) fun room =>
      information .standard (expr' room) op :=
  .bind (.advance hplain) fun _ => .symbolOperand op.precedence (op.kind == .information) _

/-- The rule for the node of any other prefix operator is paired with itself over another way of
    reading the parts. -/
theorem paired_prefixedNode (op : Operator) :
    Paired expr expr' (.at kind) .zero .zero (prefixedNode .standard expr op) fun room =>
      prefixedNode .standard (expr' room) op := by
  unfold prefixedNode
  exact .bind (.advance hplain) fun sign => .bind (.expr _) fun operand => .pure _

/-! ## Spans -/

omit hplain in
/-- The rule for the end of a span is paired with itself over another way of reading the parts. -/
theorem paired_spanEnd (op : Operator) (sign : Location) :
    Paired expr expr' .notFinal .zero .zero (spanEnd expr op sign) fun room =>
      spanEnd (expr' room) op sign := by
  unfold spanEnd
  refine .peek (fun token _ => ?_) fun hend => hend.elim
  split
  · exact .pure _
  · exact .bind (.attempt _) fun stop? => .pure _

omit hplain in
/-- The rule for the step of a span is paired with itself over another way of reading the parts. -/
theorem paired_spanStep? (op : Operator) :
    Paired expr expr' .anywhere .zero .zero (spanStep? expr op) fun room =>
      spanStep? (expr' room) op := by
  unfold spanStep?
  refine .peek (fun token _ => ?_) fun _ _ t t' ht ht' => ?_
  · -- both sides see the same token: a second mark, or something else
    split
    · rename_i hspan
      exact .attemptAfter (hspan ▸ rfl) _
    · exact .pure _
  · -- one side is at its end, and neither sees a second mark
    have hend : t.kind ≠ .span := by
      rw [ht]
      decide
    have hend' : t'.kind ≠ .span := by
      intro heq
      rw [heq] at ht'
      revert ht'
      decide
    simp only [if_neg hend, if_neg hend']
    exact endsAlike_pure none

/-- The rule for a span from its first mark on is paired with itself over another way of reading the
    parts. -/
theorem paired_spanFrom (start : Expr) (op : Operator) :
    Paired expr expr' (.at kind) .zero .zero (spanFrom .standard expr start op) fun room =>
      spanFrom .standard (expr' room) start op := by
  unfold spanFrom
  refine .bind (.advance hplain) fun sign => .atFinalEnd ?_ ?_ ?_
  · -- both sides see the end: the span takes in all
    simp only [if_true]
    exact .pure _
  · -- neither does: the end and the step are read on both
    simp only [Bool.false_eq_true, if_false]
    refine .bind (paired_spanEnd op sign) fun stop => .bind (paired_spanStep? op) fun step? => ?_
    split <;> exact .pure _
  · simp only [if_true, Bool.false_eq_true, if_false]
    intro s t _ _ ht
    refine .inl ⟨_, rfl, fun room hbarred => ?_⟩
    have hspan : t.current.kind ≠ .span := by
      intro heq
      rw [heq] at ht
      revert ht
      decide
    -- without an end and without a step the span takes in all
    have hend : spanEnd (expr' room) op sign t = .ok (.symbol "All" sign) t := by
      unfold spanEnd
      rw [peek_bind, if_neg hspan, bind_ok _ (attempt_of_barred hbarred _)]
      rfl
    have hstep : spanStep? (expr' room) op t = .ok none t := by
      unfold spanStep?
      rw [peek_bind, if_neg hspan]
      rfl
    dsimp only
    rw [bind_ok _ hend, bind_ok _ hstep]
    simp only [Expr.loc, Location.union_union_self]
    rfl

/-- The rule for a span without a start is paired with itself over another way of reading the
    parts. -/
theorem paired_leadingSpan (op : Operator) :
    Paired expr expr' (.at kind) .zero .zero (leadingSpan .standard expr op) fun room =>
      leadingSpan .standard (expr' room) op := by
  unfold leadingSpan
  refine .peek (fun token htoken => ?_) fun hend => ?_
  · exact paired_spanFrom (htoken ▸ hplain) _ op
  · cases (hend : kind = .endOfInput)
    cases hplain

/-- The rule for a span behind its start is paired with itself over another way of reading the
    parts. -/
theorem paired_trailingSpan (lhs : Expr) (op : Operator) :
    Paired expr expr' (.at kind) .zero .zero (trailingSpan .standard expr lhs op) fun room =>
      trailingSpan .standard (expr' room) lhs op := by
  unfold trailingSpan
  split
  · exact .pure _
  · exact .bind (paired_spanFrom hplain lhs op) fun e => .pure _

/-! ## All leading forms -/

/-- The rule for a prefix operator with its operands is paired with itself over another way of
    reading the parts. -/
theorem paired_prefixed (op : Operator) :
    Paired expr expr' (.at kind) .zero .zero (prefixed .standard expr op) fun room =>
      prefixed .standard (expr' room) op := by
  unfold prefixed
  split
  · exact paired_minus hplain op
  · exact paired_plus hplain op
  · exact paired_information hplain op
  · exact paired_information hplain op
  · exact paired_doubleNegation hplain op
  · exact paired_integral hplain op
  · exact paired_leadingSpan hplain op
  · exact paired_prefixedNode hplain op

end Operators

/-- The rule for an atom is paired with itself over another way of reading the parts. -/
theorem paired_atom {kind : TokenKind} (hatom : kind.isAtom = true) :
    Paired expr expr' (.at kind) .zero .zero (atom .standard) fun _ => atom .standard := by
  have hplain : kind.isPlain = true := by
    revert hatom
    cases kind <;> decide
  have hend : kind ≠ .endOfInput := by
    rintro rfl
    cases hatom
  unfold atom
  refine .peek (fun token htoken => ?_) fun heq => absurd heq hend
  obtain rfl : token.kind = kind := htoken
  -- the atom is judged before its token is passed over
  exact .ofResult hend (fun _ => Expr.isAboutToken_of_atom) fun e =>
    .bind (.advance hplain) fun _ => .pure _

/-- Neither the end of the input nor a token that ends an element starts or extends an
    expression. -/
theorem leading_of_end {kind : TokenKind} (h : kind ∈ TokenKind.endOfInput :: elementEnds) :
    OperatorTable.standard.lookup? kind .prefixed = none ∧
      OperatorTable.standard.trailing? kind = none ∧ kind.isAtom = false ∧
      kind.endsOperand = true ∧ tagHead? kind = none := by
  revert kind
  decide

/-- The rule for a leading form is paired with itself over another way of reading the parts. -/
theorem paired_leading :
    Paired expr expr' .anywhere .zero .zero (leading .standard expr) fun room =>
      leading .standard (expr' room) := by
  unfold leading
  refine .peek (fun token _ => ?_) fun _ _ t t' ht ht' => ?_
  · cases hfound : OperatorTable.standard.lookup? token.kind .prefixed with
    | some op =>
      -- no prefix operator opens or closes a bracket
      have hall : ∀ op ∈ OperatorTable.standard.operators, op.fixity = .prefixed →
          op.kind.isPlain = true := by
        decide
      obtain ⟨hkind, hfixity⟩ := Prod.mk.inj (OperatorTable.key_of_lookup? hfound)
      have hplain := hall op (OperatorTable.mem_of_lookup? hfound) hfixity
      exact paired_prefixed (hkind ▸ hplain) op
    | none =>
      dsimp only
      split
      · -- the brackets that can start an expression
        rename_i hkind
        exact paired_group (hkind ▸ rfl)
      · rename_i hkind
        exact paired_bracketed (hkind ▸ rfl) _
      · rename_i hkind
        exact paired_bracketed (hkind ▸ rfl) _
      · split
        · rename_i hatom
          exact paired_atom hatom
        · exact .unexpected
  · -- nothing starts at the end of an element, on either side
    simp only [elementEnds, List.mem_cons, List.not_mem_nil, or_false] at ht'
    rcases ht' with ht' | ht' | ht' | ht' | ht' <;> simp only [ht, ht'] <;>
      exact endsAlike_unexpected

/-! ## Trailing forms -/

section Operators

variable {kind : TokenKind} (hplain : kind.isPlain = true)
include hplain

/-- A token that neither opens nor closes anything is not the end of the input. -/
theorem notEnd_of_isPlain : kind ≠ .endOfInput := by
  rintro rfl
  cases hplain

/-- The rule for the node of an infix operator is paired with itself over another way of reading the
    parts. -/
theorem paired_infixedNode (lhs : Expr) (op : Operator) :
    Paired expr expr' (.at kind) .zero .zero (infixedNode .standard expr lhs op) fun room =>
      infixedNode .standard (expr' room) lhs op := by
  unfold infixedNode
  split
  · refine .peek (fun token htoken => ?_) fun hend => absurd hend (notEnd_of_isPlain hplain)
    obtain rfl : token.kind = kind := htoken
    exact .throw (notEnd_of_isPlain hplain) rfl
  · exact .bind (.advance hplain) fun _ => .bind (.expr _) fun rhs => .pure _

/-- The rule for the node of a postfix operator is paired with itself over another way of reading
    the parts. -/
theorem paired_postfixedNode (lhs : Expr) (op : Operator) :
    Paired expr expr' (.at kind) .zero .zero (postfixedNode .standard lhs op) fun _ =>
      postfixedNode .standard lhs op := by
  unfold postfixedNode
  exact .bind (.advance hplain) fun sign => .pure _

/-- The rule for `a - b` is paired with itself over another way of reading the parts. -/
theorem paired_difference (lhs : Expr) (op : Operator) :
    Paired expr expr' (.at kind) .zero .zero (difference .standard expr lhs op) fun room =>
      difference .standard (expr' room) lhs op := by
  unfold difference
  exact .bind (.advance hplain) fun sign => .bind (.expr _) fun rhs => .pure _

/-- The rule for `a / b` is paired with itself over another way of reading the parts. -/
theorem paired_quotient (lhs : Expr) (op : Operator) :
    Paired expr expr' (.at kind) .zero .zero (quotient .standard expr lhs op) fun room =>
      quotient .standard (expr' room) lhs op := by
  unfold quotient
  exact .bind (.advance hplain) fun sign => .bind (.expr _) fun rhs => .pure _

/-- The rule for a comparison is paired with itself over another way of reading the parts. -/
theorem paired_comparison (lhs : Expr) (op : Operator) :
    Paired expr expr' (.at kind) .zero .zero (comparison .standard expr lhs op) fun room =>
      comparison .standard (expr' room) lhs op := by
  unfold comparison
  exact .bind (.advance hplain) fun sign => .bind (.expr _) fun rhs => .pure _

/-- The rule for `f @ x` is paired with itself over another way of reading the parts. -/
theorem paired_prefixApplication (lhs : Expr) (op : Operator) :
    Paired expr expr' (.at kind) .zero .zero (prefixApplication expr lhs op) fun room =>
      prefixApplication (expr' room) lhs op := by
  unfold prefixApplication
  exact .bind (.advance hplain) fun _ => .bind (.expr _) fun rhs => .pure _

/-- The rule for `x // f` is paired with itself over another way of reading the parts. -/
theorem paired_postfixApplication (lhs : Expr) (op : Operator) :
    Paired expr expr' (.at kind) .zero .zero (postfixApplication expr lhs op) fun room =>
      postfixApplication (expr' room) lhs op := by
  unfold postfixApplication
  exact .bind (.advance hplain) fun _ => .bind (.expr _) fun rhs => .pure _

/-- The rule for `a ~ f ~ b` is paired with itself over another way of reading the parts. -/
theorem paired_infixApplication (lhs : Expr) {op : Operator} (hop : op.kind.isPlain = true)
    (hend : op.kind ∉ elementEnds) :
    Paired expr expr' (.at kind) .zero .zero (infixApplication expr lhs op) fun room =>
      infixApplication (expr' room) lhs op := by
  unfold infixApplication
  exact .bind (.advance hplain) fun _ => .bind (.expr _) fun f =>
    .bind (.expect hop hend) fun _ => .bind (.expr _) fun rhs => .pure _

/-- The rule for `f @@@ x` is paired with itself over another way of reading the parts. -/
theorem paired_levelApplication (lhs : Expr) (op : Operator) :
    Paired expr expr' (.at kind) .zero .zero (levelApplication .standard expr lhs op) fun room =>
      levelApplication .standard (expr' room) lhs op := by
  unfold levelApplication
  exact .bind (.advance hplain) fun sign => .bind (.expr _) fun rhs => .pure _

/-- The rule for a pure function is paired with itself over another way of reading the parts. -/
theorem paired_pureFunction (lhs : Expr) (op : Operator) :
    Paired expr expr' (.at kind) .zero .zero (pureFunction .standard expr lhs op) fun room =>
      pureFunction .standard (expr' room) lhs op := by
  unfold pureFunction
  refine .peek (fun token htoken => .bind (.advance (htoken ▸ hplain)) fun sign => ?_)
    fun hend => absurd hend (notEnd_of_isPlain hplain)
  split
  · exact .pure _
  · exact .bind (.expr _) fun body => .pure _

/-- The rule for `a; b` is paired with itself over another way of reading the parts. -/
theorem paired_compound (lhs : Expr) (op : Operator) :
    Paired expr expr' (.at kind) .zero .zero (compound .standard expr lhs op) fun room =>
      compound .standard (expr' room) lhs op := by
  unfold compound
  refine .bind (.advance hplain) fun sign => .atFinalEnd ?_ ?_ ?_
  · -- a statement that is left out, on both sides
    simp only [if_true]
    exact .bind (.pure _) fun _ => .pure _
  · simp only [Bool.false_eq_true, if_false]
    -- the next statement, if there is one
    exact .bind (.attempt _) fun rhs? => .pure _
  · simp only [if_true, Bool.false_eq_true, if_false]
    -- one side ends, and on the other nothing can be read where it ends
    intro s t _ _ _
    refine .inl ⟨_, rfl, fun room hbarred => ?_⟩
    dsimp only
    rw [bind_ok _ (attempt_of_barred hbarred _)]
    rfl

/-- The rule for `f /: p = v` is paired with itself over another way of reading the parts. -/
theorem paired_tagSet (lhs : Expr) (op : Operator) :
    Paired expr expr' (.at kind) .zero .zero (tagSet .standard expr lhs op) fun room =>
      tagSet .standard (expr' room) lhs op := by
  -- the second operator of an assignment is no bracket
  have hassignment : ∀ {found head}, tagHead? found = some head → found.isPlain = true := by
    intro found head h
    unfold tagHead? at h
    split at h <;> first | rfl | cases h
  unfold tagSet
  refine .bind (.advance hplain) fun _ => .bind (.expr _) fun pattern =>
    .peek (fun token _ => ?_) fun _ _ t t' ht ht' => ?_
  · -- both sides see the same second operator, or none
    cases hhead : tagHead? token.kind with
    | none => exact .missing _
    | some head =>
      refine .bind (.advance (hassignment hhead)) fun sign => ?_
      split
      · exact .pure _
      · exact .bind (.expr _) fun value => .pure _
  · -- no assignment starts where an element ends
    have hnone : tagHead? t.kind = none ∧ tagHead? t'.kind = none :=
      ⟨(leading_of_end (by simp [ht])).2.2.2.2, (leading_of_end (by simp [ht'])).2.2.2.2⟩
    simp only [hnone]
    exact endsAlike_missing _

/-- The rule for `x:p` or `p:v` is paired with itself over another way of reading the parts. -/
theorem paired_colon (lhs : Expr) (op : Operator) (p : Precedence) :
    Paired expr expr' (.at kind) .zero .zero (colon .standard expr lhs op p) fun room =>
      colon .standard (expr' room) lhs op p := by
  unfold colon
  split
  · exact .pure _
  split
  · exact .pure _
  · exact .bind (.advance hplain) fun _ => .bind (.expr _) fun rhs => .pure _

/-- A repetition goes on only as long as there is an operator to pass over. -/
theorem paired_derivative (lhs : Expr) {op : Operator} (hop : op.kind.isPlain = true)
    (hend : op.kind ∉ elementEnds) :
    Paired expr expr' (.at kind) .zero .zero (derivative .standard lhs op) fun _ =>
      derivative .standard lhs op := by
  unfold derivative
  refine .peek (fun first _ => .bind (.iterate (fun marks => ?_) _) fun marks => .pure _)
    fun heq => absurd heq (notEnd_of_isPlain hplain)
  unfold derivativeTurn
  refine .peek (fun token _ => ?_) fun _ _ t t' ht ht' => ?_
  · -- both sides count the same marks
    split
    · rename_i hkind
      exact .bind (.advance (hkind ▸ hop)) fun _ => .pure _
    · exact .pure _
  · -- the last mark is counted where one side ends
    have hne : t.kind ≠ op.kind := by
      rw [ht]
      exact (notEnd_of_isPlain hop).symm
    have hne' : t'.kind ≠ op.kind := fun heq => hend (heq ▸ ht')
    simp only [if_neg hne, if_neg hne']
    exact endsAlike_pure _

omit hplain in
/-- The rule for `a::b` is paired with itself over another way of reading the parts. -/
theorem paired_messageName (lhs : Expr) {op : Operator} (hop : op.kind.isPlain = true)
    (hend : op.kind ∉ elementEnds) :
    Paired expr expr' (.at kind) .zero .zero (messageName .standard lhs op) fun _ =>
      messageName .standard lhs op := by
  unfold messageName
  refine .bind (.iterate (fun message => ?_) _) fun message => .pure _
  unfold messageTurn
  refine .peek (fun token _ => ?_) fun _ _ t t' ht ht' => ?_
  · split
    · rename_i hkind
      -- the same mark, and behind it the same tag or none
      refine .bind (.advance (hkind ▸ hop)) fun _ =>
        .peek (fun tag _ => ?_) fun _ _ tag tag' htag htag' => ?_
      · split
        · rename_i hfound
          have hplain : tag.kind.isPlain = true := by
            rcases hfound with hfound | hfound <;> rw [hfound] <;> rfl
          exact .bind (.advance hplain) fun loc => .pure _
        · exact .unexpected
      · -- where an element ends there is no tag
        have hnot : ∀ found ∈ TokenKind.endOfInput :: elementEnds,
            ¬(found = .symbol ∨ found = .string) := by
          decide
        have hne : ¬(tag.kind = .symbol ∨ tag.kind = .string) :=
          hnot _ (by simp [htag])
        have hne' : ¬(tag'.kind = .symbol ∨ tag'.kind = .string) :=
          hnot _ (List.mem_cons_of_mem _ htag')
        simp only [if_neg hne, if_neg hne']
        exact endsAlike_unexpected
    · exact .pure _
  · -- nor is there another mark
    have hne : t.kind ≠ op.kind := by
      rw [ht]
      exact (notEnd_of_isPlain hop).symm
    have hne' : t'.kind ≠ op.kind := fun heq => hend (heq ▸ ht')
    simp only [if_neg hne, if_neg hne']
    exact endsAlike_pure _

end Operators

/-- The rule for a call or a part is paired with itself over another way of reading the parts. -/
theorem paired_callOrPart {kind : TokenKind} (hopens : kind.closer? = some .rightBracket)
    (lhs : Expr) (op : Operator) :
    Paired expr expr' (.at kind) .zero .zero (callOrPart .standard expr lhs op) fun room =>
      callOrPart .standard (expr' room) lhs op := by
  -- the arguments stand in one
  unfold callOrPart
  refine .bind (.openBracket hopens) fun _ => .peek (fun token _ => ?_)
    fun _ hzero => absurd hzero (Level.opened_ne_zero _ _)
  split
  · rename_i hkind
    -- the indices stand in two pairs of brackets
    unfold part
    have hopens' : token.kind.closer? = some .rightBracket := by
      rw [hkind]
      rfl
    exact .bind (.openInner hopens') fun _ =>
      .bind (paired_sequence (Level.openedInner_ne_zero _ _) _) fun indices =>
      .bind (.closeInner rfl) fun _ => .bind (.closeBracket rfl) fun closing => .pure _
  · unfold call
    exact .bind (paired_sequence (Level.opened_ne_zero _ _) _) fun args =>
      .bind (.closeBracket rfl) fun closing => .pure _

/-! ## All trailing forms -/

/-- Side by side with a token that ends every operand, an operand is left as it is. -/
theorem juxtaposition_of_endsOperand {s : State} (lhs : Expr) (p : Precedence)
    (h : s.current.kind.endsOperand = true) :
    juxtaposition .standard expr lhs p s = .ok (.done lhs) s := by
  unfold juxtaposition
  rw [peek_bind, h]
  cases OperatorTable.standard.lookup? .times .infixed <;> rfl

/-- The rule for expressions side by side is paired with itself over another way of reading the
    parts. -/
theorem paired_juxtaposition {kind : TokenKind} (lhs : Expr) (p : Precedence) :
    Paired expr expr' (.at kind) .zero .zero (juxtaposition .standard expr lhs p) fun room =>
      juxtaposition .standard (expr' room) lhs p := by
  unfold juxtaposition
  refine .peek (fun token _ => ?_) fun _ _ t t' ht ht' => ?_
  · -- both sides see the same token: it starts another factor, or it ends the product
    split
    · exact .pure _
    split
    · exact .pure _
    · exact .bind (.expr _) fun rhs => .pure _
  · -- one side is at its end, and the product ends on both
    have hends : t.kind.endsOperand = true := (leading_of_end (by simp [ht])).2.2.2.1
    have hends' : t'.kind.endsOperand = true := (leading_of_end (by simp [ht'])).2.2.2.1
    split
    · exact endsAlike_pure _
    · simp only [hends, hends', Bool.true_or, if_true]
      exact endsAlike_pure _

/-- The rule for any form that extends an operand is paired with itself over another way of reading
    the parts. -/
theorem paired_extended {kind : TokenKind} {op : Operator}
    (hfound : OperatorTable.standard.trailing? kind = some op) (lhs : Expr) :
    Paired expr expr' (.at kind) .zero .zero (extended .standard expr lhs op kind) fun room =>
      extended .standard (expr' room) lhs op kind := by
  -- of all operators behind an operand only the bracket of a call opens anything, and none stands
  -- where an element can end
  have hall : ∀ op ∈ OperatorTable.standard.operators, op.fixity ≠ .prefixed →
      op.kind = .leftBracket ∨ op.kind.isPlain = true ∧ op.kind ∉ elementEnds := by
    decide
  obtain ⟨hmem, rfl, hfixity⟩ := OperatorTable.mem_of_trailing? hfound
  rcases hall op hmem hfixity with hkind | ⟨hplain, hend⟩
  · -- the bracket of a call
    rw [hkind]
    exact .map _ (paired_callOrPart rfl lhs op)
  · unfold extended
    split
    · rename_i hkind
      exact .map _ (paired_messageName lhs (hkind ▸ hplain) hend)
    · rename_i hkind
      rw [hkind] at hplain
      cases hplain
    · rename_i hkind
      exact .map _ (paired_derivative (hkind ▸ hplain) lhs hplain hend)
    · rename_i hkind
      exact .map _ (paired_difference (hkind ▸ hplain) lhs op)
    · rename_i hkind
      exact .map _ (paired_quotient (hkind ▸ hplain) lhs op)
    -- the six comparisons share one rule
    iterate 6
      · rename_i hkind
        exact .map _ (paired_comparison (hkind ▸ hplain) lhs op)
    · rename_i hkind
      exact .map _ (paired_prefixApplication (hkind ▸ hplain) lhs op)
    · rename_i hkind
      exact .map _ (paired_postfixApplication (hkind ▸ hplain) lhs op)
    · rename_i hkind
      exact .map _ (paired_infixApplication (hkind ▸ hplain) lhs hplain hend)
    · rename_i hkind
      exact .map _ (paired_levelApplication (hkind ▸ hplain) lhs op)
    · rename_i hkind
      exact .map _ (paired_pureFunction (hkind ▸ hplain) lhs op)
    · rename_i hkind
      exact .map _ (paired_compound (hkind ▸ hplain) lhs op)
    · rename_i hkind
      exact paired_trailingSpan (hkind ▸ hplain) lhs op
    · rename_i hkind
      exact .map _ (paired_tagSet (hkind ▸ hplain) lhs op)
    · split
      · exact .map _ (paired_infixedNode hplain lhs op)
      · exact .map _ (paired_postfixedNode hplain lhs op)
      · exact .pure _
      · exact .pure _

/-- The rule for what extends an operand or ends it is paired with itself over another way of
    reading the parts. -/
theorem paired_trailing (p : Precedence) (lhs : Expr) :
    Paired expr expr' .anywhere .zero .zero (trailing .standard expr p lhs) fun room =>
      trailing .standard (expr' room) p lhs := by
  unfold trailing
  refine .peek (fun token _ => ?_) fun _ _ t t' ht ht' => ?_
  · -- both sides see the same token
    cases hfound : OperatorTable.standard.trailing? token.kind with
    | none => exact paired_juxtaposition lhs p
    | some op =>
      dsimp only
      split
      · rename_i hcolon
        exact paired_colon (hcolon ▸ rfl) lhs op p
      split
      · exact .pure _
      · exact paired_extended hfound lhs
  · -- where one side ends there is no operator for either
    have hnone : OperatorTable.standard.trailing? t.kind = none :=
      (leading_of_end (by simp [ht])).2.1
    have hnone' : OperatorTable.standard.trailing? t'.kind = none :=
      (leading_of_end (by simp [ht'])).2.1
    simp only [hnone, hnone']
    intro s t hs _ ht
    have hs' : s.current.kind.endsOperand = true := (leading_of_end (by simp [hs])).2.2.2.1
    have ht' : t.current.kind.endsOperand = true := (leading_of_end (by simp [ht])).2.2.2.1
    exact .inl ⟨.done lhs, juxtaposition_of_endsOperand lhs p hs', fun _ _ =>
      juxtaposition_of_endsOperand lhs p ht'⟩

/-! ## Expressions -/

/-- The rule for a leading form with all that extends it is paired with itself over another way of
    reading the parts. -/
theorem paired_chain (p : Precedence) :
    Paired expr expr' .anywhere .zero .zero (chain .standard expr p) fun room =>
      chain .standard (expr' room) p := by
  unfold chain
  exact .bind paired_leading fun e => .iterate (paired_trailing p) e

/-- What holds of pairs holds of the reader by itself, paired with its like. -/
theorem paired_chain_self (room : Nat) (p : Precedence) :
    Paired (expression .standard room) (fun _ => expression .standard room) .anywhere .zero .zero
      (chain .standard (expression .standard room) p)
      fun _ => chain .standard (expression .standard room) p :=
  paired_chain p

end Reader

end Symbolic
