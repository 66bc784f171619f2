import Symbolic.Proofs.Comparisons.Chain
import Symbolic.Proofs.FullForm.Magnitude

/-!
# Signs before an operand

A plus sign leaves the tree of its operand as it is, and a minus sign makes a product with minus
one of it; so of any mixture of signs only the number of the minus signs counts. The product that
the innermost minus sign makes is open and takes up a factor for each of the others. A number takes
the first minus sign into itself, and is a factor like any other from then on. A product in brackets
of its own, however, stays whole.

## Key results

- `negate_minusTimes`: one more minus sign
- `exists_expression_signs`: what is read after signs is negated once for each minus sign
- `exists_readTokens_signs`: signs before a symbol, a number, or anything else that stands for
  itself
-/

namespace Symbolic.Arithmetic

open Reader Parse Filter Comparisons

/-! ## Trees -/

/-- The product of so many factors of minus one and an expression, or just the expression. -/
def minusTimes : Nat → Expr → Expr
  | 0, e => e
  | k + 1, e => .node (.symbol "Times" .zero)
      (List.replicate (k + 1) (.integer (-1) .zero) ++ [e]) false .zero

/-- What a minus sign makes of an operand, but for locations. -/
def negateOnce (e : Expr) : Expr :=
  .negate .standard "Times" e .zero .zero

/-- An expression that is neither a product which could take up a factor nor a number without a
    sign. -/
def KeepsFactors (e : Expr) : Prop :=
  e.isOpenNode "Times" = false ∧ ∀ n loc, e = .number n loc → n.negative = true

variable {e : Expr} {n : Number} {loc : Location}

theorem negate_eq_make (h : ∀ n loc, e = .number n loc → n.negative = true) :
    negateOnce e = .make .standard "Times" [.integer (-1) .zero, e] .zero := by
  unfold negateOnce Expr.negate
  split
  · rename_i n loc
    rw [if_pos (h n loc rfl)]
  · rfl

theorem eraseLocations_minusTimes (k : Nat) (e : Expr) :
    (minusTimes k e).eraseLocations = minusTimes k e.eraseLocations := by
  cases k with
  | zero => rfl
  | succ k => simp [minusTimes, Expr.eraseLocations, Expr.eraseAllLocations_eq_map, Expr.integer]

theorem isFlat_times : OperatorTable.standard.isFlat "Times" = true := by
  decide +kernel

/-- A product with minus one. -/
theorem negateOnce_eq {factors : List Expr} (h : ∀ n loc, e = .number n loc → n.negative = true)
    (hfactors : Expr.contribution "Times" e = factors) :
    negateOnce e = .node (.symbol "Times" .zero) (.integer (-1) .zero :: factors) false .zero := by
  have hone : Expr.contribution "Times" (.integer (-1) .zero) = [.integer (-1) .zero] := rfl
  rw [negate_eq_make h, Expr.make, Expr.arguments, if_pos isFlat_times]
  simp [hone, hfactors]

/-- One more minus sign makes a product with one more factor. -/
theorem negate_minusTimes (h : KeepsFactors e) (k : Nat) :
    negateOnce (minusTimes k e) = minusTimes (k + 1) e := by
  cases k with
  | zero => exact negateOnce_eq h.2 (if_neg (by simp [minusTimes, h.1]))
  | succ k =>
    -- the product so far is open
    exact negateOnce_eq (by rintro n loc ⟨⟩) rfl

theorem iterate_negateOnce (h : KeepsFactors e) (k : Nat) :
    negateOnce^[k] e = minusTimes k e := by
  induction k with
  | zero => rfl
  | succ k ih => rw [Function.iterate_succ_apply', ih, negate_minusTimes h]

/-- The first minus sign goes into a number. -/
theorem iterate_negateOnce_number (h : n.negative = false) (k : Nat) :
    negateOnce^[k + 1] (.number n loc) =
      minusTimes k (.number { n with negative := true } .zero) := by
  have hnegated : KeepsFactors (.number { n with negative := true } .zero) := by
    refine ⟨rfl, ?_⟩
    rintro n loc ⟨⟩
    rfl
  have hfirst : negateOnce (.number n loc) = .number { n with negative := true } .zero := by
    simp [negateOnce, Expr.negate, h]
  rw [Function.iterate_succ_apply, hfirst, iterate_negateOnce hnegated]

/-! ## Reading signs -/

/-- A plus or a minus sign. -/
abbrev Sign :=
  {t : Token // t.kind = .plus ∨ t.kind = .minus}

/-- The tokens of signs. -/
def signTokens (signs : List Sign) : List Token :=
  signs.map (·.1)

/-- How many of the signs are minus signs. -/
def minuses (signs : List Sign) : Nat :=
  signs.countP (·.1.kind == .minus)

theorem endFree_signTokens (signs : List Sign) : ∀ t ∈ signTokens signs, t.kind ≠ .endOfInput := by
  intro t ht
  obtain ⟨⟨sign, hkind⟩, -, rfl⟩ := List.mem_map.mp ht
  rcases hkind with hkind | hkind <;> simp [hkind]

theorem keepsFactors_of_sealed (h : Sealed e) (hnumber : ∀ n loc, e ≠ .number n loc) :
    KeepsFactors e :=
  ⟨h _ (by decide), fun n loc heq => absurd heq (hnumber n loc)⟩

/-- What is read after signs is the operand, negated once for each minus sign. -/
theorem exists_expression_signs (signs : List Sign) (operand : Comparisons.Operand) :
    ∃ e, Expr.Like (fun _ _ => True) e (negateOnce^[minuses signs] operand.tree) ∧
      ∀ (s : State) (rest : List Token) (p : Precedence), s.failures = [] → p ≤ 480 →
        OperatorTable.standard.Stops p (s.before rest).current.kind → ∀ᶠ room in atTop,
          Forgetful.expression .standard room p
              (s.before (signTokens signs ++ (operand.tokens ++ rest))) =
            .ok e (s.before rest) := by
  -- induction on the signs: what is after the first one is its operand
  induction signs with
  | nil =>
    exact ⟨operand.tree, Expr.like_self (fun _ => trivial) _, fun s rest p hs hp hrest =>
      operand.eventually_read hs (UInt16.le_trans hp (by decide)) hrest⟩
  | cons sign signs ih =>
    obtain ⟨e, hlike, hread⟩ := ih
    obtain ⟨sign, hplus | hminus⟩ := sign
    · have hcount : minuses (⟨sign, .inl hplus⟩ :: signs) = minuses signs := by
        simp [minuses, hplus]
      refine ⟨if e.isParenthesized then e else e.withLoc (sign.loc.union e.loc), ?_,
        fun s rest p hs hp hrest => eventually_expression ?_⟩
      · rw [hcount]
        split
        · exact hlike
        · -- where the operand stands does not count
          rw [← Expr.withLoc_loc (negateOnce^[minuses signs] operand.tree)]
          exact Expr.like_withLoc hlike trivial
      · filter_upwards [hread s rest 480 hs UInt16.le_rfl (stops_of_le hrest hp)] with room hread
        exact chain_ok (leading_plus hplus hread) (iterate_of_stops hrest)
    · have hcount : minuses (⟨sign, .inr hminus⟩ :: signs) = minuses signs + 1 := by
        simp [minuses, hminus]
      refine ⟨.negate .standard "Times" e sign.loc (sign.loc.union e.loc), ?_,
        fun s rest p hs hp hrest => eventually_expression ?_⟩
      · rw [hcount, Function.iterate_succ_apply']
        exact Expr.like_negate hlike trivial trivial
      · filter_upwards [hread s rest 480 hs UInt16.le_rfl (stops_of_le hrest hp)] with room hread
        exact chain_ok (leading_minus hminus hread) (iterate_of_stops hrest)

theorem exists_readTokens_iterate (signs : List Sign) (operand : Comparisons.Operand)
    {ending : List Token} (hending : ∀ t ∈ ending.head?, t.kind = .endOfInput) :
    ∃ e, e.eraseLocations = (negateOnce^[minuses signs] operand.tree).eraseLocations ∧
      ∀ᶠ limit in atTop,
        readTokens ⟨.standard, limit⟩ (signTokens signs ++ operand.tokens ++ ending) =
          .ok (some e) := by
  obtain ⟨e, hlike, hread⟩ := exists_expression_signs signs operand
  refine ⟨e, Expr.eraseLocations_eq_of_like hlike, eventually_readTokens
    (List.forall_mem_append.mpr ⟨endFree_signTokens signs, operand.endFree⟩)
    (by simp [operand.shape.ne_nil]) hending ?_⟩
  have hexpression := hread (.ofTokens (signTokens signs ++ operand.tokens ++ ending)) [] 0 rfl
    UInt16.zero_le (stops_before_nil _ 0)
  rwa [List.append_nil] at hexpression

/-- The operand of a symbol. -/
def operandOfSymbol (x : TokenOf .symbol) : Comparisons.Operand :=
  .ofAtom x.1 (.ofSymbol x) (by rw [x.2]; rfl) (by simp [Expr.atom, Expr.leaf, x.2, Expr.ofSymbol])

/-- The operand of a literal that stands for a number. -/
def operandOfLiteral (t : TokenOf .number) (n : Number) (h : Number.ofLiteral? t.1.text = some n) :
    Comparisons.Operand :=
  .ofAtom t.1 (.number n t.1.loc) (by rw [t.2]; rfl) (by
    unfold Number.ofLiteral? at h
    simp [Expr.atom, Expr.leaf, Expr.literal, t.2, h])

/-- With enough room for nesting, an operand after signs is read as a tree in which only the minus
    signs count, wherever there are plus signs among them. A symbol becomes a product with a factor
    of minus one for each minus sign. A literal takes one of them into its number, and becomes a
    product with a factor for each of the others, if there are any. Whatever is no number and stands
    for itself, like a product in brackets of its own, is one factor of such a product. -/
theorem exists_readTokens_signs (signs : List Sign) {ending : List Token}
    (hending : ∀ t ∈ ending.head?, t.kind = .endOfInput) (hsigns : 0 < minuses signs) :
    (∀ x : TokenOf .symbol, ∃ e,
      e.eraseLocations = minusTimes (minuses signs) (.symbol (Expr.canonicalName x.1.text) .zero) ∧
        ∀ᶠ limit in atTop,
          readTokens ⟨.standard, limit⟩ (signTokens signs ++ [x.1] ++ ending) = .ok (some e)) ∧
    (∀ (t : TokenOf .number) (n : Number), Number.ofLiteral? t.1.text = some n → ∃ e,
      e.eraseLocations =
          minusTimes (minuses signs - 1) (.number { n with negative := true } .zero) ∧
        ∀ᶠ limit in atTop,
          readTokens ⟨.standard, limit⟩ (signTokens signs ++ [t.1] ++ ending) = .ok (some e)) ∧
    ∀ operand : Comparisons.Operand, (∀ n loc, operand.tree ≠ .number n loc) → ∃ e,
      e.eraseLocations = minusTimes (minuses signs) operand.tree.eraseLocations ∧
        ∀ᶠ limit in atTop,
          readTokens ⟨.standard, limit⟩ (signTokens signs ++ operand.tokens ++ ending) =
            .ok (some e) := by
  -- an operand that is no number keeps one factor for each minus sign
  have hoperand : ∀ operand : Comparisons.Operand, (∀ n loc, operand.tree ≠ .number n loc) → ∃ e,
      e.eraseLocations = minusTimes (minuses signs) operand.tree.eraseLocations ∧
        ∀ᶠ limit in atTop,
          readTokens ⟨.standard, limit⟩ (signTokens signs ++ operand.tokens ++ ending) =
            .ok (some e) := by
    intro operand hnumber
    obtain ⟨e, he, hread⟩ := exists_readTokens_iterate signs operand hending
    rw [iterate_negateOnce (keepsFactors_of_sealed operand.sealed hnumber),
      eraseLocations_minusTimes] at he
    exact ⟨e, he, hread⟩
  refine ⟨fun x => hoperand (operandOfSymbol x) nofun, fun t n hn => ?_, hoperand⟩
  obtain ⟨e, he, hread⟩ := exists_readTokens_iterate signs (operandOfLiteral t n hn) hending
  -- a literal takes the first minus sign into itself
  obtain ⟨k, hk⟩ : ∃ k, minuses signs = k + 1 := ⟨minuses signs - 1, by omega⟩
  rw [hk]
  rw [hk, show (operandOfLiteral t n hn).tree = .number n t.1.loc from rfl,
    iterate_negateOnce_number (Number.negative_of_ofCharacters? hn),
    eraseLocations_minusTimes] at he
  exact ⟨e, he, hread⟩

/-- The signs `- + -`. -/
def mixedSigns : List Sign :=
  [⟨.unplaced .minus "-", .inr rfl⟩, ⟨.unplaced .plus "+", .inl rfl⟩,
    ⟨.unplaced .minus "-", .inr rfl⟩]

/-- The product `(a*a)` in parentheses. -/
def productOperand : Comparisons.Operand where
  tokens := [⟨.leftParen, "(", .zero⟩, ⟨.symbol, "a", .zero⟩, ⟨.times, "*", .zero⟩,
    ⟨.symbol, "a", .zero⟩, ⟨.rightParen, ")", .zero⟩]
  tree := .node (.symbol "Times" .zero) [.symbol "a" .zero, .symbol "a" .zero] true .zero
  limit := 3
  shape := @Comparisons.OperandTokens.group _ _
    [⟨.symbol, "a", .zero⟩, ⟨.times, "*", .zero⟩, ⟨.symbol, "a", .zero⟩]
    rfl rfl (.plain rfl (.plain rfl (.plain rfl .nil)))
  endFree := by decide
  accepted := by decide +kernel

/-- The product of the factors, but for locations. -/
def productOf (factors : List Expr) : Expr :=
  .node (.symbol "Times" .zero) factors false .zero

theorem exists_readTokens_mixedSigns :
    (∀ t ∈ [Token.endOfInput .zero].head?, t.kind = .endOfInput) ∧ 0 < minuses mixedSigns ∧
      Number.ofLiteral? "5" = some ⟨"5", false, 10, none, 0⟩ ∧
      (∀ n loc, productOperand.tree ≠ .number n loc) ∧
      (∃ e, e.eraseLocations =
          productOf [.integer (-1) .zero, .integer (-1) .zero, .symbol "x" .zero] ∧
        ∀ᶠ limit in atTop, readTokens ⟨.standard, limit⟩ (signTokens mixedSigns ++
          [(TokenOf.placed .symbol "x" 0 0).1] ++ [.endOfInput .zero]) = .ok (some e)) ∧
      (∃ e, e.eraseLocations =
          productOf [.integer (-1) .zero, .number ⟨"5", true, 10, none, 0⟩ .zero] ∧
        ∀ᶠ limit in atTop, readTokens ⟨.standard, limit⟩ (signTokens mixedSigns ++
          [(TokenOf.placed .number "5" 0 0).1] ++ [.endOfInput .zero]) = .ok (some e)) ∧
      ∃ e, e.eraseLocations =
          productOf [.integer (-1) .zero, .integer (-1) .zero, productOperand.tree] ∧
        ∀ᶠ limit in atTop, readTokens ⟨.standard, limit⟩ (signTokens mixedSigns ++
          productOperand.tokens ++ [.endOfInput .zero]) = .ok (some e) := by
  have hending : ∀ t ∈ [Token.endOfInput .zero].head?, t.kind = .endOfInput :=
    Token.kind_of_mem_endOfInput
  have hsigns : 0 < minuses mixedSigns := by decide
  have hfive : Number.ofLiteral? "5" = some ⟨"5", false, 10, none, 0⟩ := by decide +kernel
  have hproduct : ∀ n loc, productOperand.tree ≠ .number n loc := nofun
  obtain ⟨hsymbol, hnumber, hoperand⟩ := exists_readTokens_signs mixedSigns hending hsigns
  exact ⟨hending, hsigns, hfive, hproduct, hsymbol (.placed .symbol "x" 0 0),
    hnumber (.placed .number "5" 0 0) _ hfive, hoperand productOperand hproduct⟩

end Symbolic.Arithmetic
