import Symbolic.Proofs.Reader.Success

/-!
# Steps with the standard operators

What the operators of arithmetic and the brackets of calls make of their operands, where these are
read. How tightly the operands have to bind is what the standard table says.

## Key results

- `trailing_times`, `trailing_beside`, `trailing_divide`, `trailing_plus`, `trailing_minus`:
  operators between operands
- `leading_minus`, `leading_plus`: signs before an operand
- `trailing_call`, `trailing_part`, `bracketed_ok`: what holds a sequence of elements
- `trailing_prefixApplication`, `trailing_postfixApplication`, `trailing_infixApplication`: the
  operators that apply one operand to another
- `sequenceTurn_last`, `sequenceTurn_comma`: an element of a sequence, up to where it ends
-/

namespace Symbolic.Reader

open Parse

variable {p : Precedence} {s s' : State} {t : Token} {tokens rest : List Token}
  {expr : Precedence → Parse Expr} {lhs rhs : Expr}

/-! ## Operators between operands -/

/-- A division sign takes the factor after it. -/
theorem trailing_divide (ht : t.kind = .divide) (hp : p ≤ 470)
    (h : expr 471 (s.before tokens) = .ok rhs s') :
    trailing .standard expr p lhs (s.before (t :: tokens)) =
      .ok (.again (.make .standard "Times" [lhs,
        .make .standard "Power" [rhs, .integer (-1) t.loc] rhs.loc]
        (lhs.loc.union rhs.loc))) s' := by
  have hfound : OperatorTable.standard.trailing? .divide =
      some (.infixed .divide "Times" 470 .left) := rfl
  rw [trailing_extended ht hfound (by decide) hp]
  refine map_ok _ ?_
  unfold quotient
  rw [advance_bind]
  exact (bind_ok _ h).trans rfl

/-- A minus sign between operands takes a product after it, and adds the negative of that. -/
theorem trailing_minus (ht : t.kind = .minus) (hp : p ≤ 310)
    (h : expr 311 (s.before tokens) = .ok rhs s') :
    trailing .standard expr p lhs (s.before (t :: tokens)) =
      .ok (.again (.make .standard "Plus" [lhs,
        .negate .standard "Times" rhs t.loc (t.loc.union rhs.loc)]
        (lhs.loc.union (t.loc.union rhs.loc)))) s' := by
  have hfound : OperatorTable.standard.trailing? .minus =
      some (.infixed .minus "Plus" 310 .left) := rfl
  rw [trailing_extended ht hfound (by decide) hp]
  refine map_ok _ ?_
  unfold difference
  rw [advance_bind]
  exact (bind_ok _ h).trans rfl

theorem trailing_times (ht : t.kind = .times) (hp : p ≤ 400)
    (h : expr 401 (s.before tokens) = .ok rhs s') :
    trailing .standard expr p lhs (s.before (t :: tokens)) =
      .ok (.again (.make .standard "Times" [lhs, rhs] (lhs.loc.union rhs.loc))) s' := by
  have hfound : OperatorTable.standard.lookup? .times .infixed =
      some (.infixed .times "Times" 400 .flat) := rfl
  exact trailing_general ht hfound rfl (by decide) hp h

theorem trailing_plus (ht : t.kind = .plus) (hp : p ≤ 310)
    (h : expr 311 (s.before tokens) = .ok rhs s') :
    trailing .standard expr p lhs (s.before (t :: tokens)) =
      .ok (.again (.make .standard "Plus" [lhs, rhs] (lhs.loc.union rhs.loc))) s' := by
  have hfound : OperatorTable.standard.lookup? .plus .infixed =
      some (.infixed .plus "Plus" 310 .flat) := rfl
  exact trailing_general ht hfound rfl (by decide) hp h

/-- The kinds of token that a primary can start with. -/
def primaryStarts : List TokenKind :=
  [.number, .symbol, .leftParen]

/-- An operand that stands right after another one is multiplied by. -/
theorem trailing_beside (ht : t.kind ∈ primaryStarts) (hp : p ≤ 400)
    (h : expr 401 (s.before (t :: tokens)) = .ok rhs s') :
    trailing .standard expr p lhs (s.before (t :: tokens)) =
      .ok (.again (.make .standard "Times" [lhs, rhs] (lhs.loc.union rhs.loc))) s' := by
  -- what a primary starts with is no operator and ends no operand
  have hnone : OperatorTable.standard.trailing? t.kind = none ∧ t.kind.endsOperand = false := by
    revert ht
    generalize t.kind = kind
    intro hkind
    simp only [primaryStarts, List.mem_cons, List.not_mem_nil, or_false] at hkind
    rcases hkind with rfl | rfl | rfl <;> exact ⟨rfl, rfl⟩
  have htimes : OperatorTable.standard.lookup? .times .infixed =
      some (.infixed .times "Times" 400 .flat) := rfl
  unfold trailing
  rw [peek_bind, State.current_before_cons]
  simp only [hnone.1]
  unfold juxtaposition
  rw [peek_bind, State.current_before_cons]
  have hp' : ¬(400 : Precedence) < p := UInt16.not_lt.mpr hp
  simp only [htimes, hnone.2, Operator.infixed, hp', Bool.false_or, decide_false,
    Bool.false_eq_true, if_false]
  exact (bind_ok _ h).trans rfl

/-! ## Signs before an operand -/

theorem leading_minus {e : Expr} (ht : t.kind = .minus)
    (h : expr 480 (s.before tokens) = .ok e s') :
    leading .standard expr (s.before (t :: tokens)) =
      .ok (.negate .standard "Times" e t.loc (t.loc.union e.loc)) s' := by
  have hfound : OperatorTable.standard.lookup? .minus .prefixed =
      some (.prefixed .minus "Times" 480) := rfl
  rw [leading_prefixed ht hfound]
  show minus .standard expr (.prefixed .minus "Times" 480) (s.before (t :: tokens)) = _
  unfold minus
  rw [advance_bind]
  exact (bind_ok _ h).trans rfl

theorem leading_plus {e : Expr} (ht : t.kind = .plus)
    (h : expr 480 (s.before tokens) = .ok e s') :
    leading .standard expr (s.before (t :: tokens)) =
      .ok (if e.isParenthesized then e else e.withLoc (t.loc.union e.loc)) s' := by
  have hfound : OperatorTable.standard.lookup? .plus .prefixed =
      some (.prefixed .plus "Plus" 480) := rfl
  rw [leading_prefixed ht hfound]
  show plus expr (.prefixed .plus "Plus" 480) (s.before (t :: tokens)) = _
  unfold plus
  rw [advance_bind]
  refine (bind_ok _ h).trans ?_
  -- the location of what stands in brackets is kept
  by_cases hparen : e.isParenthesized = true
  · rw [if_pos hparen, if_pos hparen]
    rfl
  · rw [if_neg hparen, if_neg hparen]
    rfl

/-! ## Calls -/

/-- An operand with arguments in brackets after it is applied to them. -/
theorem trailing_call {closing : Token} {args : List Expr} (ht : t.kind = .leftBracket)
    (hfirst : ((s.within t.loc).before tokens).current.kind ≠ .leftBracket)
    (h : sequence expr .rightBracket ((s.within t.loc).before tokens) =
      .ok args ((s.within t.loc).before (closing :: rest)))
    (hclosing : closing.kind = .rightBracket) (hp : p ≤ 670) :
    trailing .standard expr p lhs (s.before (t :: tokens)) =
      .ok (.again (Expr.apply lhs args (lhs.loc.union closing.loc)).parenthesize)
        (s.before rest) := by
  have hfound : OperatorTable.standard.trailing? .leftBracket =
      some (.postfixed .leftBracket "Part" 670) := rfl
  rw [trailing_extended ht hfound (by decide) hp]
  refine map_ok _ ?_
  unfold callOrPart
  -- a second bracket right after the first would make it a part
  rw [openBracket_bind, peek_bind, if_neg hfirst]
  unfold call
  rw [bind_ok _ h, bind_ok _ (closeBracket_ok hclosing)]
  rfl

/-- An operand with indices in two brackets after it is a part. -/
theorem trailing_part {inner closing closing' : Token} {indices : List Expr}
    (ht : t.kind = .leftBracket) (hinner : inner.kind = .leftBracket)
    (h : sequence expr .rightBracket ((s.within t.loc).before tokens) =
      .ok indices ((s.within t.loc).before (closing :: closing' :: rest)))
    (hclosing : closing.kind = .rightBracket) (hclosing' : closing'.kind = .rightBracket)
    (hp : p ≤ 670) :
    trailing .standard expr p lhs (s.before (t :: inner :: tokens)) =
      .ok (.again (.make .standard "Part" (lhs :: indices) (lhs.loc.union closing'.loc)))
        (s.before rest) := by
  have hfound : OperatorTable.standard.trailing? .leftBracket =
      some (.postfixed .leftBracket "Part" 670) := rfl
  rw [trailing_extended ht hfound (by decide) hp]
  refine map_ok _ ?_
  unfold callOrPart
  rw [openBracket_bind, peek_bind, State.current_before_cons, if_pos hinner]
  unfold part
  rw [advance_bind, bind_ok _ h, bind_ok _ (expect_ok hclosing),
    bind_ok _ (closeBracket_ok hclosing')]
  rfl

/-! ## Operators that apply -/

/-- `@` takes an operand that binds as tightly as itself, and applies what is before it to that. -/
theorem trailing_prefixApplication (ht : t.kind = .prefixMark) (hp : p ≤ 640)
    (h : expr 640 (s.before tokens) = .ok rhs s') :
    trailing .standard expr p lhs (s.before (t :: tokens)) =
      .ok (.again (.apply lhs [rhs] (lhs.loc.union rhs.loc))) s' := by
  have hfound : OperatorTable.standard.trailing? .prefixMark =
      some (.infixed .prefixMark "Prefix" 640 .right) := rfl
  rw [trailing_extended ht hfound (by decide) hp]
  refine map_ok _ ?_
  unfold prefixApplication
  rw [advance_bind]
  exact (bind_ok _ h).trans rfl

/-- `//` takes an operand that binds more tightly, and applies that to what is before it. -/
theorem trailing_postfixApplication (ht : t.kind = .postfixMark) (hp : p ≤ 70)
    (h : expr 71 (s.before tokens) = .ok rhs s') :
    trailing .standard expr p lhs (s.before (t :: tokens)) =
      .ok (.again (.apply rhs [lhs] (lhs.loc.union rhs.loc))) s' := by
  have hfound : OperatorTable.standard.trailing? .postfixMark =
      some (.infixed .postfixMark "Postfix" 70 .left) := rfl
  rw [trailing_extended ht hfound (by decide) hp]
  refine map_ok _ ?_
  unfold postfixApplication
  rw [advance_bind]
  exact (bind_ok _ h).trans rfl

/-- `~` takes two operands that bind more tightly, with another `~` between them. -/
theorem trailing_infixApplication {f : Expr} {closing : Token} (ht : t.kind = .infixMark)
    (hp : p ≤ 630) (hhead : expr 631 (s.before tokens) = .ok f (s.before (closing :: rest)))
    (hclosing : closing.kind = .infixMark) (h : expr 631 (s.before rest) = .ok rhs s') :
    trailing .standard expr p lhs (s.before (t :: tokens)) =
      .ok (.again (.apply f [lhs, rhs] (lhs.loc.union rhs.loc))) s' := by
  have hfound : OperatorTable.standard.trailing? .infixMark =
      some (.ternary .infixMark "Infix" 630) := rfl
  rw [trailing_extended ht hfound (by decide) hp]
  refine map_ok _ ?_
  unfold infixApplication
  rw [advance_bind]
  refine (bind_ok _ hhead).trans ?_
  refine (bind_ok _ (expect_ok hclosing)).trans ?_
  exact (bind_ok _ h).trans rfl

/-- Where the second `~` is missing, there is no application. -/
theorem trailing_infixApplication_error {f : Expr} (ht : t.kind = .infixMark) (hp : p ≤ 630)
    (hhead : expr 631 (s.before tokens) = .ok f s') (hkind : s'.current.kind ≠ .infixMark) :
    trailing .standard expr p lhs (s.before (t :: tokens)) =
      .error (s'.missing .infixMark) s' := by
  have hfound : OperatorTable.standard.trailing? .infixMark =
      some (.ternary .infixMark "Infix" 630) := rfl
  have hexpect : expect .infixMark s' = .error (s'.missing .infixMark) s' :=
    (expect_eq _ _).trans (if_neg hkind)
  rw [trailing_extended ht hfound (by decide) hp]
  refine map_error _ ?_
  unfold infixApplication
  rw [advance_bind]
  exact (bind_ok _ hhead).trans (bind_error hexpect)

/-! ## Brackets of their own -/

theorem bracketed_ok {head : String} {closer : TokenKind} {closing : Token} {items : List Expr}
    (h : sequence expr closer ((s.within t.loc).before tokens) =
      .ok items ((s.within t.loc).before (closing :: rest)))
    (hclosing : closing.kind = closer) :
    bracketed .standard expr head closer (s.before (t :: tokens)) =
      .ok (.make .standard head items (t.loc.union closing.loc)) (s.before rest) := by
  unfold bracketed
  rw [openBracket_bind, bind_ok _ h, bind_ok _ (closeBracket_ok hclosing)]
  rfl

theorem leading_list {closing : Token} {items : List Expr} (ht : t.kind = .leftBrace)
    (h : sequence expr .rightBrace ((s.within t.loc).before tokens) =
      .ok items ((s.within t.loc).before (closing :: rest)))
    (hclosing : closing.kind = .rightBrace) :
    leading .standard expr (s.before (t :: tokens)) =
      .ok (.make .standard "List" items (t.loc.union closing.loc)) (s.before rest) := by
  unfold leading
  rw [peek_bind, State.current_before_cons, ht]
  exact bracketed_ok h hclosing

theorem leading_association {closing : Token} {items : List Expr}
    (ht : t.kind = .leftAssociation)
    (h : sequence expr .rightAssociation ((s.within t.loc).before tokens) =
      .ok items ((s.within t.loc).before (closing :: rest)))
    (hclosing : closing.kind = .rightAssociation) :
    leading .standard expr (s.before (t :: tokens)) =
      .ok (.make .standard "Association" items (t.loc.union closing.loc)) (s.before rest) := by
  unfold leading
  rw [peek_bind, State.current_before_cons, ht]
  exact bracketed_ok h hclosing

/-! ## Sequences -/

/-- The brackets that close sequences. -/
def sequenceClosers : List TokenKind :=
  [.rightBracket, .rightBrace, .rightAssociation]

/-- Neither a comma nor a closing bracket starts an element. -/
theorem endsOperand_of_mem_sequenceClosers {closer : TokenKind} (h : closer ∈ sequenceClosers) :
    closer.endsOperand = true ∧ closer ≠ .comma := by
  revert h
  cases closer <;> decide

/-- A token that ends no operand is none of those before which an element ends. -/
theorem ne_of_not_endsOperand {kind kind' : TokenKind} (h : kind.endsOperand = false)
    (h' : kind'.endsOperand = true) : kind ≠ kind' := by
  rintro rfl
  rw [h] at h'
  cases h'

variable {closer : TokenKind} {items es : List Expr}

theorem element_ok {e : Expr} (h : expr 0 s = .ok e s')
    (hend : s'.current.kind = .comma ∨ s'.current.kind = closer) :
    element expr closer s = .ok [e] s' := by
  unfold element
  rw [bind_ok _ h]
  refine iterate_done ?_
  unfold elementTurn
  rw [peek_bind, if_pos hend]
  rfl

/-- An element goes on with the next expression in it. -/
theorem elementTurn_again {e : Expr} {factors : List Expr} (hcloser : closer ∈ sequenceClosers)
    (hstart : s.current.kind.endsOperand = false) (h : expr 0 s = .ok e s') :
    elementTurn expr closer factors s = .ok (.again (factors ++ [e])) s' := by
  have hcomma : s.current.kind ≠ .comma := ne_of_not_endsOperand hstart rfl
  have hend : s.current.kind ≠ .endOfInput := ne_of_not_endsOperand hstart rfl
  have hclosing : s.current.kind ≠ closer :=
    ne_of_not_endsOperand hstart (endsOperand_of_mem_sequenceClosers hcloser).1
  unfold elementTurn
  rw [peek_bind, if_neg (not_or.mpr ⟨hcomma, hclosing⟩), if_neg hend, if_neg (by simp [hstart]),
    bind_ok _ h]
  rfl

/-- The last element of a sequence is left out, or there is none. -/
theorem sequenceTurn_done {closing : Token} (h : closing.kind = closer)
    (hcloser : closer ∈ sequenceClosers) :
    sequenceTurn expr closer items (s.before (closing :: rest)) =
      .ok (.done (if items.isEmpty then [] else items ++ [.symbol "Null" closing.loc]))
        (s.before (closing :: rest)) := by
  have hcomma : closing.kind ≠ .comma := h ▸ (endsOperand_of_mem_sequenceClosers hcloser).2
  unfold sequenceTurn
  rw [peek_bind, State.current_before_cons, if_neg hcomma, if_pos h]
  rfl

/-- An element before a comma is left out. -/
theorem sequenceTurn_omitted {comma : Token} (hcomma : comma.kind = .comma) :
    sequenceTurn expr closer items (s.before (comma :: rest)) =
      .ok (.again (items ++ [.symbol "Null" comma.loc])) (s.before rest) := by
  unfold sequenceTurn
  rw [peek_bind, State.current_before_cons, if_pos hcomma]
  rfl

/-- An element that is not left out. -/
theorem sequenceTurn_element (hcloser : closer ∈ sequenceClosers)
    (hstart : s.current.kind.endsOperand = false) (h : element expr closer s = .ok es s') :
    sequenceTurn expr closer items s =
      (do if (← peek).kind = .comma then
            let _ ← advance
            return .again (items ++ es)
          else return .done (items ++ es) : Parse (Turn (List Expr) (List Expr))) s' := by
  have hcomma : s.current.kind ≠ .comma := ne_of_not_endsOperand hstart rfl
  have hend : s.current.kind ≠ .endOfInput := ne_of_not_endsOperand hstart rfl
  have hclosing : s.current.kind ≠ closer :=
    ne_of_not_endsOperand hstart (endsOperand_of_mem_sequenceClosers hcloser).1
  unfold sequenceTurn
  rw [peek_bind, if_neg hcomma, if_neg hclosing, if_neg hend, bind_ok _ h]

/-- The last element of a sequence. -/
theorem sequenceTurn_last (hcloser : closer ∈ sequenceClosers)
    (hstart : s.current.kind.endsOperand = false) (h : element expr closer s = .ok es s')
    (hend : s'.current.kind = closer) :
    sequenceTurn expr closer items s = .ok (.done (items ++ es)) s' := by
  have hcomma : s'.current.kind ≠ .comma := hend ▸ (endsOperand_of_mem_sequenceClosers hcloser).2
  rw [sequenceTurn_element hcloser hstart h, peek_bind, if_neg hcomma]
  rfl

/-- A sequence of one element. -/
theorem sequence_one {e : Expr} (hcloser : closer ∈ sequenceClosers)
    (hstart : s.current.kind.endsOperand = false) (h : expr 0 s = .ok e s')
    (hend : s'.current.kind = closer) : sequence expr closer s = .ok [e] s' :=
  iterate_done (sequenceTurn_last hcloser hstart (element_ok h (.inr hend)) hend)

/-- A sequence whose first element fails. -/
theorem sequence_error {error : SyntaxError} (hcloser : closer ∈ sequenceClosers)
    (hstart : s.current.kind.endsOperand = false) (h : expr 0 s = .error error s') :
    sequence expr closer s = .error error s' := by
  have hcomma : s.current.kind ≠ .comma := ne_of_not_endsOperand hstart rfl
  have hend : s.current.kind ≠ .endOfInput := ne_of_not_endsOperand hstart rfl
  have hclosing : s.current.kind ≠ closer :=
    ne_of_not_endsOperand hstart (endsOperand_of_mem_sequenceClosers hcloser).1
  have hturn : sequenceTurn expr closer [] s = .error error s' := by
    unfold sequenceTurn
    rw [peek_bind, if_neg hcomma, if_neg hclosing, if_neg hend]
    exact bind_error (bind_error h)
  exact iterate_error hturn

/-- An element of a sequence with the comma after it. -/
theorem sequenceTurn_comma {comma : Token} (hcloser : closer ∈ sequenceClosers)
    (hstart : s.current.kind.endsOperand = false)
    (h : element expr closer s = .ok es (s'.before (comma :: rest)))
    (hcomma : comma.kind = .comma) :
    sequenceTurn expr closer items s = .ok (.again (items ++ es)) (s'.before rest) := by
  rw [sequenceTurn_element hcloser hstart h, peek_bind, State.current_before_cons, if_pos hcomma]
  rfl

end Symbolic.Reader
