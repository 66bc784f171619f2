import Symbolic.Proofs.Juxtaposition.Seam

/-!
# Every rule crosses the seam

With the standard operators each rule of the grammar keeps the two readers together, if the
expressions that it reads do. Rules start away from the seam: there the readers see the same token.
After an operand they may be at the seam, but then all that a rule can do is to end, to fail, or to
ask for a delimiter that does not stand there.

## Key results

- `crosses_leading`: the forms that start an expression
- `rule_extended`, `rule_juxtaposition`, `rule_colon`: the forms that extend one
-/

namespace Symbolic.Juxtaposition

open Reader Parse

/-- Expressions with that much room keep the readers together, and do not end at the seam if they
    can take up a product. -/
def PartsCross (seam : Seam) (room : Nat) : Prop :=
  ∀ (here : Option TokenKind) (p : Precedence),
    Crosses seam here True (fun _ => p ≤ 400) (expression .standard room p)

variable {seam : Seam} {room : Nat} {kind : TokenKind} {op : Operator} {lhs : Expr}

/-- The sign of an operator is neither the last token of an operand nor the end of the input. -/
theorem completes_of_mem (h : op ∈ OperatorTable.standard.operators) :
    op.kind.completes = false ∧ op.kind ≠ .endOfInput := by
  have hall : ∀ op ∈ OperatorTable.standard.operators,
      op.kind.completes = false ∧ op.kind ≠ .endOfInput := by
    decide +kernel
  exact hall op h

/-- A rule that makes a tree leaves that to be extended. -/
theorem Crosses.again {m : Parse Expr} (h : Rule seam kind m) :
    Crosses seam (some kind) True (Turn.Holds (fun _ => False) fun _ => True)
      (Turn.again <$> m : Parse (Turn Expr Expr)) :=
  h.map _ fun _ => id

/-! ## Elements between commas -/

section Parts

variable (hexpr : PartsCross seam room)
include hexpr

/-- The rule for one more expression in an element keeps the two readings together, on either side
    of the seam. -/
theorem crosses_elementTurn (closer : TokenKind) (factors : List Expr) :
    Crosses seam none True (Turn.Holds (fun _ => True) fun _ => True)
      (elementTurn (expression .standard room) closer factors) := by
  unfold elementTurn
  refine .peek fun token _ => ?_
  split
  · exact .pure _ fun _ => trivial
  split
  · exact .unexpected
  split
  · exact .throw _
  · exact .bind (hexpr _ 0) fun e => .pure _ fun _ => by decide

/-- The rule for an element keeps the two readings together, on either side of the seam. -/
theorem crosses_element {here : Option TokenKind} (closer : TokenKind) :
    Crosses seam here True (fun _ => True) (element (expression .standard room) closer) := by
  unfold element
  exact .bind (hexpr _ 0) fun e => .of_clear (by decide) <|
    .iterate (progresses_elementTurn rfl room closer) (crosses_elementTurn hexpr closer) _

/-- The rule for one more element keeps the two readings together, on either side of the seam. -/
theorem crosses_sequenceTurn (closer : TokenKind) (items : List Expr) :
    Crosses seam none True (Turn.Holds (fun _ => True) fun _ => True)
      (sequenceTurn (expression .standard room) closer items) := by
  unfold sequenceTurn
  refine .peek fun token _ => ?_
  split
  · rename_i hcomma
    -- a comma is away from the seam
    exact .bind (.advance_clear (hcomma ▸ rfl)) fun loc => .pure _ fun _ => trivial
  split
  · exact .pure _ fun _ => trivial
  split
  · exact .unexpected
  · -- the seam can be within an element
    refine .bind (crosses_element hexpr closer) fun es => .peek fun next _ => ?_
    split
    · rename_i hcomma
      exact .bind (.advance_clear (hcomma ▸ rfl)) fun _ => .pure _ fun _ => trivial
    · exact .pure _ fun _ => trivial

/-- The rule for the elements up to a closing bracket keeps the two readings together, on either
    side of the seam. -/
theorem crosses_sequence (closer : TokenKind) :
    Crosses seam none True (fun _ => True) (sequence (expression .standard room) closer) :=
  .iterate (progresses_sequenceTurn rfl room closer) (crosses_sequenceTurn hexpr closer) []

/-! ## Leading forms -/

/-- The rule for `(e)`, which starts away from the seam, keeps the two readings together. -/
theorem rule_group (hopens : kind.closer?.isSome) :
    Rule seam kind (group (expression .standard room)) := by
  unfold group
  refine .bind (.openBracket hopens) fun opening => .bind (hexpr _ 0) fun e =>
    .bind (.closeBracket rfl) fun closing => ?_
  split <;> exact .pure _ False.elim

/-- The rule for a node over the elements between brackets, which starts away from the seam, keeps
    the two readings together. -/
theorem rule_bracketed {closer : TokenKind} (hopens : kind.closer? = some closer)
    (head : String) :
    Rule seam kind (bracketed .standard (expression .standard room) head closer) := by
  unfold bracketed
  exact .bind (.openBracket (by rw [hopens]; rfl)) fun opening =>
    .bind (crosses_sequence hexpr closer) fun items =>
      .bind (.closeBracket (balance_of_closer? hopens).2) fun closing => .pure _ False.elim

section Operators

variable (hkind : kind.completes = false)
include hkind

/-- Most operators pass over their sign, read one operand and make a tree of the two. -/
theorem rule_operand {α : Type} (p : Precedence) (g : Location → Expr → α) :
    Rule seam kind (advance >>= fun sign => expression .standard room p >>= fun operand =>
      (pure (g sign operand) : Parse α)) :=
  .bind (.advance_clear hkind) fun _ => .bind (hexpr _ _) fun _ => .pure _ False.elim

/-- The rule for `+x`, which starts away from the seam, keeps the two readings together. -/
theorem rule_plus (op : Operator) : Rule seam kind (plus (expression .standard room) op) := by
  unfold plus
  refine .bind (.advance_clear hkind) fun sign => .bind (hexpr _ _) fun operand => ?_
  split <;> exact .pure _ False.elim

/-- The rule for `?x`, which starts away from the seam, keeps the two readings together. -/
theorem rule_information (op : Operator) :
    Rule seam kind (information .standard (expression .standard room) op) := by
  unfold information
  refine .bind (.advance_clear hkind) fun sign => .peek fun first _ =>
    .bind (hexpr _ _) fun operand => ?_
  dsimp only
  split
  · exact .throw _
  · exact .pure _ False.elim

/-- The rule for `∫ f ⅆ x`, which starts away from the seam, keeps the two readings together. -/
theorem rule_integral (op : Operator) :
    Rule seam kind (integral .standard (expression .standard room) op) := by
  unfold integral
  exact .bind (.advance_clear hkind) fun sign => .bind (hexpr _ _) fun integrand =>
    .bind (.expect (by decide) (seam.first_ne_of_endsOperand rfl)) fun _ =>
      .bind (.of_clear rfl (hexpr _ _)) fun argument => .pure _ False.elim

/-! ## Spans -/

omit hkind in
/-- The rule for the end of a span keeps the two readings together, on either side of the seam. -/
theorem crosses_spanEnd (op : Operator) (sign : Location) :
    Crosses seam none True (fun _ => False) (spanEnd (expression .standard room) op sign) := by
  unfold spanEnd
  refine .peek fun token _ => ?_
  split
  · exact .pure _ False.elim
  · exact .bind (.attempt (hexpr _ _)) fun stop? => .pure _ False.elim

omit hkind in
/-- There is no second mark at the seam. -/
theorem crosses_spanStep? (op : Operator) :
    Crosses seam none False (fun _ => False) (spanStep? (expression .standard room) op) := by
  have hfirst : seam.first.kind ≠ .span := seam.first_ne_of_trailing rfl
  have hsign : seam.sign.kind ≠ .span := by rw [seam.isTimes]; decide
  unfold spanStep?
  refine .peek_alike (fun token => ?_) ?_ ?_
  · split
    · rename_i hspan
      exact .attempt (.bind (.advance_clear (hspan ▸ rfl)) fun _ => hexpr _ _)
    · exact .pure _ False.elim
  · -- neither side of the seam starts with the mark of a span
    rw [if_neg hfirst, if_neg hsign]
  · rw [if_neg hfirst]
    exact .pure _ False.elim

/-- The rule for a span from its first mark on, which starts away from the seam, keeps the two
    readings together. -/
theorem rule_spanFrom (start : Expr) (op : Operator) :
    Rule seam kind (spanFrom .standard (expression .standard room) start op) := by
  unfold spanFrom
  refine .bind (.advance_clear hkind) fun sign => .bind .atFinalEnd fun isEnd => ?_
  split
  · exact .pure _ False.elim
  refine .bind (crosses_spanEnd hexpr op sign) fun stop =>
    .bind (crosses_spanStep? hexpr op) fun step? => ?_
  split <;> exact .pure _ False.elim

/-- The rule for a span without a start, which starts away from the seam, keeps the two readings
    together. -/
theorem rule_leadingSpan (op : Operator) :
    Rule seam kind (leadingSpan .standard (expression .standard room) op) := by
  unfold leadingSpan
  refine .peek fun token htoken => ?_
  rw [htoken kind rfl]
  exact rule_spanFrom hexpr hkind _ op

/-- The rule for a span behind its start, which starts away from the seam, keeps the two readings
    together. -/
theorem rule_trailingSpan (lhs : Expr) (op : Operator) :
    Crosses seam (some kind) True (Turn.Holds (fun _ => False) fun _ => True)
      (trailingSpan .standard (expression .standard room) lhs op) := by
  unfold trailingSpan
  split
  · -- an open span is left as it is, before the mark
    exact .pure _ fun _ => trivial
  · exact .bind (rule_spanFrom hexpr hkind lhs op) fun e => .pure _ False.elim

/-! ## All leading forms -/

/-- The rule for a prefix operator with its operands, which starts away from the seam, keeps the two
    readings together. -/
theorem rule_prefixed (op : Operator) :
    Rule seam kind (prefixed .standard (expression .standard room) op) := by
  unfold prefixed
  split
  · exact rule_operand hexpr hkind _ _
  · exact rule_plus hexpr hkind op
  · exact rule_information hexpr hkind op
  · exact rule_information hexpr hkind op
  · exact rule_operand hexpr hkind _ _
  · exact rule_integral hexpr hkind op
  · exact rule_leadingSpan hexpr hkind op
  · exact rule_operand hexpr hkind _ _

end Operators

omit hexpr in
/-- The rule for an atom, which starts away from the seam, keeps the two readings together. -/
theorem rule_atom : Rule seam kind (atom .standard) := by
  unfold atom
  exact .peek fun token _ => .ofResult_bind _ fun e => .bind .advance fun _ => .pure _ False.elim

/-- The rule for a leading form keeps the two readings together, on either side of the seam. -/
theorem crosses_leading {here : Option TokenKind} :
    Crosses seam here True (fun _ => False) (leading .standard (expression .standard room)) := by
  unfold leading
  refine .peek fun token _ => ?_
  split
  · rename_i op hfound
    -- a prefix operator completes nothing, so the seam is not behind it
    have hkind := (Prod.mk.inj (OperatorTable.key_of_lookup? hfound)).1
    have hcompletes := (completes_of_mem (OperatorTable.mem_of_lookup? hfound)).1
    exact rule_prefixed hexpr (hkind ▸ hcompletes) op
  split
  · rename_i hkind
    exact rule_group hexpr (by rw [hkind]; rfl)
  · rename_i hkind
    exact rule_bracketed hexpr (by rw [hkind]; rfl) _
  · rename_i hkind
    exact rule_bracketed hexpr (by rw [hkind]; rfl) _
  split
  · exact rule_atom
  · exact .unexpected

/-! ## Trailing forms -/

section Operators

variable (hkind : kind.completes = false)
include hkind

/-- The rule for the node of an infix operator, which starts away from the seam, keeps the two
    readings together. -/
theorem rule_infixedNode (lhs : Expr) (op : Operator) :
    Rule seam kind (infixedNode .standard (expression .standard room) lhs op) := by
  unfold infixedNode
  split
  · exact .peek fun token _ => .throw _
  · exact rule_operand hexpr hkind _ _

omit hexpr hkind in
/-- The rule for the node of a postfix operator, which starts away from the seam, keeps the two
    readings together. -/
theorem rule_postfixedNode (lhs : Expr) (op : Operator) :
    Rule seam kind (postfixedNode .standard lhs op) := by
  unfold postfixedNode
  exact .bind .advance fun sign => .pure _ False.elim

/-- The second mark is not at the seam. -/
theorem rule_infixApplication (lhs : Expr) {op : Operator} (hop : op.kind.completes = false)
    (hsign : op.kind ≠ .times) (hfirst : seam.first.kind ≠ op.kind) :
    Rule seam kind (infixApplication (expression .standard room) lhs op) := by
  unfold infixApplication
  exact .bind (.advance_clear hkind) fun _ => .bind (hexpr _ _) fun f =>
    .bind (.expect hsign hfirst) fun _ => .bind (.of_clear hop (hexpr _ _)) fun rhs =>
      .pure _ False.elim

/-- The rule for a pure function, which starts away from the seam, keeps the two readings
    together. -/
theorem rule_pureFunction (lhs : Expr) (op : Operator) :
    Rule seam kind (pureFunction .standard (expression .standard room) lhs op) := by
  unfold pureFunction
  refine .peek fun token htoken => ?_
  rw [htoken kind rfl]
  refine .bind (.advance_clear hkind) fun sign => ?_
  split
  · exact .pure _ False.elim
  · exact .bind (hexpr _ _) fun body => .pure _ False.elim

/-- The rule for `a; b`, which starts away from the seam, keeps the two readings together. -/
theorem rule_compound (lhs : Expr) (op : Operator) :
    Rule seam kind (compound .standard (expression .standard room) lhs op) := by
  unfold compound
  refine .bind (.advance_clear hkind) fun sign => .bind .atFinalEnd fun isEnd => ?_
  dsimp only
  split
  · rw [pure_bind]
    exact .pure _ False.elim
  · exact .bind (.attempt (hexpr _ _)) fun rhs? => .pure _ False.elim

/-- No assignment stands at the seam. -/
theorem rule_tagSet (lhs : Expr) (op : Operator) :
    Rule seam kind (tagSet .standard (expression .standard room) lhs op) := by
  -- the sign of an assignment completes nothing, and extends an operand
  have htagHead : ∀ {found head}, tagHead? found = some head →
      found.completes = false ∧ (OperatorTable.standard.trailing? found).isSome := by
    intro found head h
    unfold tagHead? at h
    split at h <;> first | exact ⟨rfl, rfl⟩ | cases h
  -- an assignment extends what is to its left, and the first token to the right does not
  have hfirst : tagHead? seam.first.kind = none := by
    by_contra hne
    obtain ⟨head, hhead⟩ := Option.ne_none_iff_exists'.mp hne
    have hsome := (htagHead hhead).2
    rw [seam.unextended] at hsome
    cases hsome
  have hsign : tagHead? seam.sign.kind = none := by
    rw [seam.isTimes]
    rfl
  unfold tagSet
  refine .bind (.advance_clear hkind) fun _ => .bind (hexpr _ _) fun pattern =>
    .anywhere (.peek_alike (fun token => ?_) ?_ ?_)
  · split
    · exact .missing _
    · rename_i head hhead
      refine .bind (.advance_clear (htagHead hhead).1) fun sign => ?_
      split
      · exact .pure _ False.elim
      · exact .bind (hexpr _ _) fun value => .pure _ False.elim
  · simp only [hfirst, hsign]
  · simp only [hfirst]
    exact .missing _

/-- The rule for `x:p` or `p:v`, which starts away from the seam, keeps the two readings
    together. -/
theorem rule_colon (lhs : Expr) (op : Operator) (p : Precedence) :
    Crosses seam (some kind) True (Turn.Holds (fun _ => False) fun _ => True)
      (colon .standard (expression .standard room) lhs op p) := by
  unfold colon
  split
  · exact .pure _ fun _ => trivial
  split
  · exact .pure _ fun _ => trivial
  · exact .bind (.advance_clear hkind) fun _ => .bind (hexpr _ _) fun rhs => .pure _ False.elim

end Operators

/-! ## Repeated marks -/

section Marks

variable (hfound : OperatorTable.standard.trailing? op.kind = some op)
include hfound

variable (hsign : seam.sign.kind ≠ op.kind)
include hsign

omit hexpr in
/-- A repetition goes on only where its mark comes next, which is not so at the seam. -/
theorem crosses_derivativeTurn (marks : Nat × Location) :
    Crosses seam none False (Turn.Holds (fun _ => False) fun _ => False)
      (derivativeTurn op marks) := by
  have hfirst := seam.first_ne_of_trailing hfound
  unfold derivativeTurn
  refine .peek_alike (fun token => ?_) ?_ ?_
  · split
    · exact .bind .advance fun _ => .pure _ False.elim
    · exact .pure _ False.elim
  · rw [if_neg hfirst, if_neg hsign]
  · rw [if_neg hfirst]
    exact .pure _ False.elim

omit hexpr in
/-- The rule for `f''`, which starts away from the seam, keeps the two readings together. -/
theorem rule_derivative (lhs : Expr) : Rule seam kind (derivative .standard lhs op) := by
  have hprogress := progresses_derivativeTurn
    (completes_of_mem (OperatorTable.mem_of_trailing? hfound).1).2
  unfold derivative
  refine .peek fun first _ => .bind (.anywhere (.iterate hprogress
    (crosses_derivativeTurn hfound hsign) _)) fun marks => .pure _ False.elim

omit hexpr in
/-- The rule for one more tag of a message keeps the two readings together, on either side of the
    seam. -/
theorem crosses_messageTurn (message : List Expr × Location) :
    Crosses seam none False (Turn.Holds (fun _ => False) fun _ => False)
      (messageTurn op message) := by
  have hfirst := seam.first_ne_of_trailing hfound
  unfold messageTurn
  refine .peek_alike (fun token => ?_) ?_ ?_
  · -- away from the seam both see the same token
    split
    · rename_i hmark
      have hcompletes := (completes_of_mem (OperatorTable.mem_of_trailing? hfound).1).1
      refine .bind (.advance_clear (hmark ▸ hcompletes)) fun _ => .peek fun tag _ => ?_
      split
      · exact .bind .advance fun _ => .pure _ False.elim
      · exact .unexpected
    · exact .pure _ False.elim
  · -- at the seam the one sees the first token behind it and the other the sign, and neither is a
    -- mark
    rw [if_neg hfirst, if_neg hsign]
  · rw [if_neg hfirst]
    exact .pure _ False.elim

omit hexpr in
/-- The rule for `a::b`, which starts away from the seam, keeps the two readings together. -/
theorem rule_messageName (lhs : Expr) : Rule seam kind (messageName .standard lhs op) := by
  have hprogress := progresses_messageTurn
    (completes_of_mem (OperatorTable.mem_of_trailing? hfound).1).2
  unfold messageName
  exact .bind (.anywhere (.iterate hprogress (crosses_messageTurn hfound hsign) _)) fun message =>
    .pure _ False.elim

end Marks

/-! ## All trailing forms -/

/-- The rule for a call or a part, which starts away from the seam, keeps the two readings
    together. -/
theorem rule_callOrPart (hopens : kind.closer?.isSome) (lhs : Expr) (op : Operator) :
    Rule seam kind (callOrPart .standard (expression .standard room) lhs op) := by
  unfold callOrPart
  refine .bind (.openBracket hopens) fun _ => .peek fun token _ => ?_
  split
  · rename_i hkind
    unfold part
    exact .bind (.advance_clear (hkind ▸ rfl)) fun _ =>
      .bind (crosses_sequence hexpr .rightBracket) fun indices =>
        .bind (.expect (by decide) (seam.first_ne_of_endsOperand rfl)) fun _ =>
          .bind (.closeBracket rfl) fun closing => .pure _ False.elim
  · -- with no second bracket the place after the first one is as clear as before
    unfold call
    exact .bind (.of_clear trivial (crosses_sequence hexpr .rightBracket)) fun args =>
      .bind (.closeBracket rfl) fun closing => .pure _ False.elim

/-- The rule for expressions side by side, which starts away from the seam, keeps the two readings
    together. -/
theorem rule_juxtaposition (lhs : Expr) (p : Precedence) :
    Crosses seam (some kind) True (Turn.Holds (fun _ => False) fun _ => True)
      (juxtaposition .standard (expression .standard room) lhs p) := by
  unfold juxtaposition
  refine .peek fun token _ => ?_
  split
  · exact .pure _ fun _ => trivial
  split
  · exact .pure _ fun _ => trivial
  · exact .bind (hexpr _ _) fun rhs => .pure _ False.elim

/-- The rule for any form that extends an operand, which starts away from the seam, keeps the two
    readings together. -/
theorem rule_extended (hfound : OperatorTable.standard.trailing? kind = some op) (lhs : Expr) :
    Crosses seam (some kind) True (Turn.Holds (fun _ => False) fun _ => True)
      (extended .standard (expression .standard room) lhs op kind) := by
  obtain ⟨hmem, rfl, -⟩ := OperatorTable.mem_of_trailing? hfound
  have hkind := (completes_of_mem hmem).1
  have hfirst := seam.first_ne_of_trailing hfound
  -- the sign that one reader sees is that of multiplication
  have hsign : op.kind ≠ .times → seam.sign.kind ≠ op.kind := by
    rw [seam.isTimes]
    exact Ne.symm
  unfold extended
  split
  · exact .again (rule_messageName hfound (hsign (by simp [*])) lhs)
  · rename_i hbracket
    exact .again (rule_callOrPart hexpr (by rw [hbracket]; rfl) lhs op)
  · exact .again (rule_derivative hfound (hsign (by simp [*])) lhs)
  · exact .again (rule_operand hexpr hkind _ _)
  · exact .again (rule_operand hexpr hkind _ _)
  -- the six comparisons share one rule
  iterate 6 exact .again (rule_operand hexpr hkind _ _)
  · exact .again (rule_operand hexpr hkind _ _)
  · exact .again (rule_operand hexpr hkind _ _)
  · exact .again (rule_infixApplication hexpr hkind lhs hkind (by simp [*]) hfirst)
  · exact .again (rule_operand hexpr hkind _ _)
  · exact .again (rule_pureFunction hexpr hkind lhs op)
  · exact .again (rule_compound hexpr hkind lhs op)
  · exact rule_trailingSpan hexpr hkind lhs op
  · exact .again (rule_tagSet hexpr hkind lhs op)
  · split
    · exact .again (rule_infixedNode hexpr hkind lhs op)
    · exact .again (rule_postfixedNode lhs op)
    · exact .pure _ fun _ => trivial
    · exact .pure _ fun _ => trivial

end Parts

end Symbolic.Juxtaposition
