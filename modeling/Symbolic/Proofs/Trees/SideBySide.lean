import Symbolic.Proofs.Reader.Success

/-!
# Expressions side by side

With the standard operators an expression that binds as loosely as can be ends only before a token
that ends an operand, or, if it is an open span, before the mark of the next span. So whatever has
another expression right beside it in an element is an open span.

## Key results

- `trailing_done_iff`: where an expression is left as it is
- `isOpenSpan_of_expression`: an expression with another one beside it
-/

namespace Symbolic

/-- Whether the expression is a span that is free to combine. -/
def Expr.IsOpenSpan (e : Expr) : Prop :=
  e.isOpenNode "Span" = true

namespace Reader

open Parse

variable {expr : Precedence → Parse Expr} {p : Precedence} {lhs e e' : Expr} {s s' s'' : State}

/-- No expression starts with a token that ends an operand. -/
theorem not_endsOperand_of_leading (h : leading .standard expr s = .ok e s') :
    s.current.kind.endsOperand = false := by
  unfold leading at h
  rw [peek_bind] at h
  unfold TokenKind.endsOperand
  split
  -- each of these kinds is none of a prefix operator, an opening bracket and an atom
  any_goals
    rename_i hkind
    rw [hkind] at h
    cases h
  rfl

/-! ## Where an expression is left as it is -/

/-- An operand that has to bind at least as tightly as `p` ends before a kind of token. -/
def EndsBefore (p : Precedence) (lhs : Expr) (kind : TokenKind) : Prop :=
  match OperatorTable.standard.trailing? kind with
  | none => kind.endsOperand = true ∨ 400 < p
  | some op =>
    if kind = .rawColon then colonMeaning? .standard lhs op = none ∨ p = op.precedence.next
    else op.precedence < p ∨ kind = .span ∧ lhs.IsOpenSpan

theorem pure_done_iff : (pure (.done lhs) : Parse (Turn Expr Expr)) s = .ok (.done e) s' ↔
    lhs = e ∧ s = s' := by
  constructor
  · rintro ⟨⟩
    exact ⟨rfl, rfl⟩
  · rintro ⟨rfl, rfl⟩
    rfl

theorem map_again_ne_done {m : Parse Expr} :
    (Turn.again (β := Expr) <$> m) s ≠ .ok (.done e) s' := by
  intro h
  obtain ⟨v, -, hv⟩ := exists_of_map_ok h
  cases hv

theorem juxtaposition_done_iff : juxtaposition .standard expr lhs p s = .ok (.done e) s' ↔
    (s.current.kind.endsOperand = true ∨ 400 < p) ∧ lhs = e ∧ s = s' := by
  have htimes : OperatorTable.standard.lookup? .times .infixed =
      some (.infixed .times "Times" 400 .flat) := rfl
  have hiff : (s.current.kind.endsOperand || decide (400 < p)) = true ↔
      s.current.kind.endsOperand = true ∨ 400 < p := by
    rw [Bool.or_eq_true, decide_eq_true_iff]
  unfold juxtaposition
  rw [peek_bind]
  simp only [htimes, Operator.infixed]
  by_cases hends : (s.current.kind.endsOperand || decide (400 < p)) = true
  · rw [if_pos hends]
    exact pure_done_iff.trans (and_iff_right (hiff.mp hends)).symm
  · -- a product is read, and then the turn goes on
    rw [if_neg hends]
    refine iff_of_false (fun h => ?_) fun h => hends (hiff.mpr h.1)
    obtain ⟨rhs, s₁, -, h⟩ := exists_of_bind_ok h
    cases h

theorem colon_done_iff {op : Operator} : colon .standard expr lhs op p s = .ok (.done e) s' ↔
    (colonMeaning? .standard lhs op = none ∨ p = op.precedence.next) ∧ lhs = e ∧ s = s' := by
  unfold colon
  cases hmeaning : colonMeaning? .standard lhs op with
  | none => exact pure_done_iff.trans (and_iff_right (.inl rfl)).symm
  | some meaning =>
    dsimp only
    -- only at the threshold just above its own precedence is a colon left unread
    by_cases hp : p = op.precedence.next
    · rw [if_pos hp]
      exact pure_done_iff.trans (and_iff_right (.inr hp)).symm
    · rw [if_neg hp]
      refine iff_of_false (fun h => ?_) (by simp [hp])
      obtain ⟨sign, s₁, -, h⟩ := exists_of_bind_ok h
      obtain ⟨rhs, s₂, -, h⟩ := exists_of_bind_ok h
      cases h

/-- A standard operator after an operand that is neither infix nor postfix has a rule of its own. -/
theorem fixity_of_trailing? {kind : TokenKind} {op : Operator}
    (h : OperatorTable.standard.trailing? kind = some op) :
    op.fixity = .infixed ∨ op.fixity = .postfixed ∨ kind ∈ [.infixMark, .span, .tagSet] := by
  have hall : ∀ op ∈ OperatorTable.standard.operators, op.fixity = .ternary →
      op.kind ∈ [.infixMark, .span, .tagSet] := by
    decide
  obtain ⟨hop, hkind, hprefixed⟩ := OperatorTable.mem_of_trailing? h
  cases hfixity : op.fixity with
  | infixed => exact .inl rfl
  | postfixed => exact .inr (.inl rfl)
  | ternary => exact .inr (.inr (hkind ▸ hall op hop hfixity))
  | prefixed => exact absurd hfixity hprefixed

/-- Any operator but the mark of a span goes on to a larger expression. -/
theorem extended_cases (expr : Precedence → Parse Expr) (lhs : Expr) {kind : TokenKind}
    {op : Operator} (hfound : OperatorTable.standard.trailing? kind = some op) :
    (kind ≠ .span ∧ ∃ m, extended .standard expr lhs op kind = Turn.again <$> m) ∨
      kind = .span ∧ extended .standard expr lhs op kind = trailingSpan .standard expr lhs op := by
  unfold extended
  split
  -- the operators with a form of their own go on, whatever they read
  any_goals exact .inl ⟨by decide, _, rfl⟩
  · exact .inr ⟨rfl, rfl⟩
  · rename_i hinfix _ _ _ _ hspan htag
    refine .inl ⟨hspan, ?_⟩
    rcases fixity_of_trailing? hfound with hfixity | hfixity | hkind
    · rw [hfixity]
      exact ⟨_, rfl⟩
    · rw [hfixity]
      exact ⟨_, rfl⟩
    · simp_all

/-- An operand ends before a token that does not extend it. -/
theorem trailing_done_iff : trailing .standard expr p lhs s = .ok (.done e) s' ↔
    EndsBefore p lhs s.current.kind ∧ lhs = e ∧ s = s' := by
  unfold trailing EndsBefore
  rw [peek_bind]
  cases hfound : OperatorTable.standard.trailing? s.current.kind with
  | none => exact juxtaposition_done_iff
  | some op =>
    dsimp only
    -- the colon is tried before the threshold is
    by_cases hcolon : s.current.kind = .rawColon
    · rw [if_pos hcolon, if_pos hcolon]
      exact colon_done_iff
    rw [if_neg hcolon, if_neg hcolon]
    by_cases hp : op.precedence < p
    · -- an operator below the threshold ends the operand
      rw [if_pos hp]
      exact pure_done_iff.trans (and_iff_right (.inl hp)).symm
    rw [if_neg hp]
    rcases extended_cases expr lhs hfound with ⟨hspan, m, hm⟩ | ⟨hspan, hm⟩
    · -- every operator but that of a span extends the operand
      rw [hm]
      refine iff_of_false map_again_ne_done fun h => ?_
      rcases h.1 with hp' | ⟨hspan', -⟩
      · exact hp hp'
      · exact hspan hspan'
    · have hhead : op.head = "Span" := by
        rw [hspan] at hfound
        cases hfound
        rfl
      rw [hm]
      unfold trailingSpan
      rw [hhead]
      by_cases hopen : lhs.isOpenNode "Span" = true
      · rw [if_pos hopen]
        exact pure_done_iff.trans (and_iff_right (.inr ⟨hspan, hopen⟩)).symm
      · rw [if_neg hopen]
        refine iff_of_false map_again_ne_done fun h => ?_
        rcases h.1 with hp' | ⟨-, hopen'⟩
        · exact hp hp'
        · exact hopen hopen'

/-- What an operand that binds as loosely as can be ends before: a token that ends every operand,
    or the mark of the next span if the operand is an open span. -/
theorem EndsBefore.cases {kind : TokenKind} (h : EndsBefore 0 lhs kind) :
    kind.endsOperand = true ∨ lhs.IsOpenSpan := by
  have hlt : ∀ q : Precedence, ¬q < 0 := fun q => UInt16.not_lt.mpr UInt16.zero_le
  unfold EndsBefore at h
  split at h
  · exact .inl (h.resolve_right (hlt 400))
  · split at h
    · rename_i hcolon
      exact .inl (by rw [hcolon]; rfl)
    · exact .inr (h.resolve_left (hlt _)).2

/-! ## Whole expressions -/

theorem not_endsOperand_of_expression {room : Nat}
    (h : expression .standard room p s = .ok e s') : s.current.kind.endsOperand = false := by
  obtain ⟨inner, lhs, s₁, -, hleading, -⟩ := exists_of_expression_ok h
  exact not_endsOperand_of_leading hleading

/-- Only an open span can have another expression beside it. -/
theorem isOpenSpan_of_expression {room : Nat}
    (h : expression .standard room 0 s = .ok e s')
    (h' : expression .standard room 0 s' = .ok e' s'') : e.IsOpenSpan := by
  obtain ⟨inner, lhs, s₁, -, -, hchain⟩ := exists_of_expression_ok h
  obtain ⟨lhs', s₂, hdone⟩ := exists_done_of_iterate hchain
  obtain ⟨hends, rfl, rfl⟩ := trailing_done_iff.mp hdone
  rcases hends.cases with hends | hspan
  · -- what comes next starts an expression
    rw [not_endsOperand_of_expression h'] at hends
    cases hends
  · exact hspan

end Reader

end Symbolic
