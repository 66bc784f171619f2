import Symbolic.Proofs.Climbing.Split
import Symbolic.Proofs.Reader.Success

/-!
# Thresholds

An expression is read at a precedence, and what extends it is meant to bind at least as tightly as
that. All the rules look at this first but the one for colons, which looks at the operand before it
and is turned away at a single precedence: the one at which the pattern after another colon is read.
So the right operand of an infix operator ends before any weaker operator, unless this is a colon.

## Key results

- `admits_of_trailing`: what a single turn extends an operand by
- `turns_of_expression`: what extends an expression, and what an infix operator takes
- `exists_colon_below_threshold`: a colon that binds less tightly than it has to
-/

namespace Symbolic.Climbing

open Reader Parse

variable {table : OperatorTable} {expr : Precedence → Parse Expr} {p : Precedence}
  {lhs e : Expr} {s s' : State}

/-! ## What extends an operand -/

/-- What can extend an operand that is read at `p`: an operator that binds at least as tightly, or
    a product that does. A colon has to find a symbol or a pattern before it, and to be read at any
    other precedence than the next after its own. -/
def Admits (table : OperatorTable) (p : Precedence) (lhs : Expr) (kind : TokenKind) : Prop :=
  if kind = .rawColon then
    ∃ op ∈ table.trailing? kind, (colonMeaning? table lhs op).isSome ∧ p ≠ op.precedence.next
  else ∃ q ∈ table.grip? kind, p ≤ q

theorem exists_grip_of_juxtaposition (htrailing : table.trailing? s.current.kind = none)
    (h : juxtaposition table expr lhs p s = .ok (.again e) s') :
    ∃ q ∈ table.grip? s.current.kind, p ≤ q := by
  unfold juxtaposition at h
  rw [peek_bind] at h
  cases htimes : table.lookup? .times .infixed with
  | none =>
    rw [htimes] at h
    cases h
  | some times =>
    simp only [htimes] at h
    -- standing side by side grips as the sign of multiplication would
    by_cases hends : (s.current.kind.endsOperand || decide (times.precedence < p)) = true
    · rw [if_pos hends] at h
      cases h
    · simp only [Bool.or_eq_true, decide_eq_true_eq, not_or, UInt16.not_lt] at hends
      refine ⟨times.precedence, ?_, hends.2⟩
      simp [OperatorTable.grip?, htrailing, htimes, hends.1]

theorem admits_of_colon {op : Operator}
    (h : colon table expr lhs op p s = .ok (.again e) s') :
    (colonMeaning? table lhs op).isSome ∧ p ≠ op.precedence.next := by
  unfold colon at h
  cases hmeaning : colonMeaning? table lhs op with
  | none =>
    rw [hmeaning] at h
    cases h
  | some meaning =>
    simp only [hmeaning] at h
    refine ⟨rfl, fun hp => ?_⟩
    rw [if_pos hp] at h
    cases h

/-- Whatever extends an operand in one turn can do so at the precedence asked for. -/
theorem admits_of_trailing (h : trailing table expr p lhs s = .ok (.again e) s') :
    Admits table p lhs s.current.kind := by
  unfold trailing at h
  rw [peek_bind] at h
  unfold Admits
  cases htrailing : table.trailing? s.current.kind with
  | none =>
    -- no operator at all: the operand is multiplied by what comes next
    rw [htrailing] at h
    have hgrip := exists_grip_of_juxtaposition htrailing h
    split
    · -- a colon that is no operator ends every operand
      rename_i hcolon
      rw [hcolon] at htrailing hgrip
      simp [OperatorTable.grip?, htrailing, TokenKind.endsOperand] at hgrip
    · exact hgrip
  | some op =>
    simp only [htrailing] at h
    split
    · rename_i hcolon
      rw [if_pos hcolon] at h
      exact ⟨op, rfl, admits_of_colon h⟩
    · -- any other operator is turned away if it binds less tightly
      rename_i hcolon
      rw [if_neg hcolon] at h
      refine ⟨op.precedence, by simp [OperatorTable.grip?, htrailing], ?_⟩
      rw [← UInt16.not_lt]
      intro hp
      rw [if_pos hp] at h
      cases h

/-! ## What an infix operator takes -/

/-- An infix operator that is read by the general rule, an atom to its right that is no operator
    itself, and a token that is no colon and binds less tightly than the operator, if it binds at
    all. -/
structure Descent (table : OperatorTable) where
  sign : Token
  right : Token
  next : Token
  op : Operator
  operand : Expr
  found : table.lookup? sign.kind .infixed = some op
  general : sign.kind.hasOwnRule = false
  isAtom : right.kind.isAtom = true
  plain : table.lookup? right.kind .prefixed = none
  reads : Expr.atom table right = .ok operand
  weaker : table.Stops op.precedence next.kind

/-- The general rule makes a node over the operand and all that is read to its right. -/
theorem exists_of_trailing_general {op : Operator} {t : Token} {tokens : List Token}
    (hfound : table.lookup? t.kind .infixed = some op) (hgeneral : t.kind.hasOwnRule = false)
    (h : trailing table expr p lhs (s.before (t :: tokens)) = .ok (.again e) s') :
    ∃ rhs, expr op.rightPrecedence (s.before tokens) = .ok rhs s' ∧
      e = combine table op lhs rhs := by
  have hp : p ≤ op.precedence := by
    have hadmits := admits_of_trailing h
    rw [Admits, State.current_before_cons,
      if_neg (TokenKind.ne_rawColon_of_general hgeneral)] at hadmits
    simpa [OperatorTable.grip?, OperatorTable.trailing?_of_infixed hfound] using hadmits
  rw [trailing_eq_infixedNode rfl hfound hgeneral hp] at h
  obtain ⟨e', hnode, hagain⟩ := exists_of_map_ok h
  cases hagain
  exact exists_of_infixedNode_ok hnode

/-- An operator takes the atom to its right by itself if a token that binds less tightly follows. -/
theorem trailing_of_descent {room : Nat} (d : Descent table) {rest : List Token}
    (hrest : s.rest = d.sign :: d.right :: d.next :: rest)
    (h : trailing table (expression table room) p lhs s = .ok (.again e) s') :
    e = combine table d.op lhs d.operand ∧ s' = s.before (d.next :: rest) := by
  have hs : s = s.before (d.sign :: d.right :: d.next :: rest) := by
    rw [← hrest, State.before_rest]
  rw [hs] at h
  obtain ⟨rhs, hrhs, rfl⟩ := exists_of_trailing_general d.found d.general h
  -- the atom is the leading form of the right operand, which ends there
  obtain ⟨rfl, rfl⟩ := eq_leading_of_stops hrhs (fun _ => leading_atom d.plain d.isAtom d.reads)
    (stops_of_le d.weaker d.op.precedence_le_rightPrecedence)
  exact ⟨rfl, rfl⟩

/-! ## Whole expressions -/

/-- An expression that is read at `p` is a leading form with what extends it turn by turn, each
    time by something that can do so at `p`. Whenever that is an infix operator with an atom to its
    right and a weaker operator after this, the operator takes the atom by itself. -/
theorem turns_of_expression {room : Nat} (h : expression table room p s = .ok e s') :
    ∃ inner first s₁ trail, room = inner + 1 ∧
      leading table (expression table inner) s = .ok first s₁ ∧
      Turns (trailing table (expression table inner) p) first s₁ trail e s' ∧
      ∀ v ∈ trail, Admits table p v.1 v.2.current.kind ∧
        ∀ (d : Descent table) (rest : List Token),
          v.2.rest = d.sign :: d.right :: d.next :: rest →
          trailing table (expression table inner) p v.1 v.2 =
            .ok (.again (combine table d.op v.1 d.operand)) (v.2.before (d.next :: rest)) := by
  obtain ⟨inner, first, s₁, hroom, hleading, hchain⟩ := exists_of_expression_ok h
  obtain ⟨trail, hturns⟩ := exists_turns_of_iterate hchain
  -- one turn, from anywhere
  have hturn (lhs next s s')
      (hagain : trailing table (expression table inner) p lhs s = .ok (.again next) s') :
      Admits table p lhs s.current.kind ∧ ∀ (d : Descent table) (rest : List Token),
        s.rest = d.sign :: d.right :: d.next :: rest →
        trailing table (expression table inner) p lhs s =
          .ok (.again (combine table d.op lhs d.operand)) (s.before (d.next :: rest)) := by
    refine ⟨admits_of_trailing hagain, fun d rest hrest => ?_⟩
    obtain ⟨rfl, rfl⟩ := trailing_of_descent d hrest hagain
    exact hagain
  exact ⟨inner, first, s₁, trail, hroom, hleading, hturns, hturns.forall_mem hturn⟩

theorem exists_ok_of_run' {m : Parse Expr} (h : m.run' s = some e) : ∃ s', m s = .ok e s' := by
  unfold EStateM.run' EStateM.run at h
  split at h
  · cases h
    exact ⟨_, by assumption⟩
  · cases h

/-- The tokens of `b * c + d`. -/
def productThenSum : List Token :=
  [⟨.symbol, "b", .zero⟩, ⟨.times, "*", .zero⟩, ⟨.symbol, "c", .zero⟩, ⟨.plus, "+", .zero⟩,
    ⟨.symbol, "d", .zero⟩]

/-- The product `b * c`. -/
def product : Expr :=
  .node (.symbol "Times" .zero) [.symbol "b" .zero, .symbol "c" .zero] false .zero

/-- Multiplication, in the product before a sum. -/
def productDescent : Descent .standard where
  sign := ⟨.times, "*", .zero⟩
  right := ⟨.symbol, "c", .zero⟩
  next := ⟨.plus, "+", .zero⟩
  op := .infixed .times "Times" 400 .flat
  operand := .symbol "c" .zero
  found := by decide +kernel
  general := rfl
  isAtom := rfl
  plain := by decide +kernel
  reads := rfl
  weaker := by decide +kernel

/-- As the operand of a sum, the product is read up to the next sign. -/
theorem turns_of_productThenSum :
    ∃ s' first s₁ trail, expression .standard 2 311 (.ofTokens productThenSum) = .ok product s' ∧
      Turns (trailing .standard (expression .standard 1) 311) first s₁ trail product s' ∧
      ∀ v ∈ trail, Admits .standard 311 v.1 v.2.current.kind ∧
        (v.2.rest = productThenSum.tail →
          trailing .standard (expression .standard 1) 311 v.1 v.2 =
            .ok (.again (combine .standard (.infixed .times "Times" 400 .flat) v.1
              (.symbol "c" .zero))) (v.2.before (productThenSum.drop 3))) := by
  have hrun : (expression .standard 2 311).run' (.ofTokens productThenSum) = some product := by
    decide +kernel
  obtain ⟨s', h⟩ := exists_ok_of_run' hrun
  obtain ⟨inner, first, s₁, trail, hroom, -, hturns, hadmits⟩ := turns_of_expression h
  cases hroom
  refine ⟨s', first, s₁, trail, h, hturns, fun v hv => ⟨(hadmits v hv).1, ?_⟩⟩
  exact (hadmits v hv).2 productDescent [⟨.symbol, "d", .zero⟩]

/-- The tokens of `a + b : c`. -/
def sumThenColon : List Token :=
  [⟨.symbol, "a", .zero⟩, ⟨.plus, "+", .zero⟩, ⟨.symbol, "b", .zero⟩, ⟨.rawColon, ":", .zero⟩,
    ⟨.symbol, "c", .zero⟩]

/-- The pattern `b : c`. -/
def pattern : Expr :=
  .node (.symbol "Pattern" .zero) [.symbol "b" .zero, .symbol "c" .zero] false .zero

/-- A colon binds less tightly than a sum. Yet the right operand of a sum takes in a colon, so that
    `a + b : c` is read as the sum of `a` and a pattern. -/
theorem exists_colon_below_threshold :
    ∃ plus ∈ OperatorTable.standard.lookup? .plus .infixed,
      ∃ op ∈ OperatorTable.standard.trailing? .rawColon,
        plus.kind.hasOwnRule = false ∧ op.precedence < plus.precedence ∧
        (∃ s', expression .standard 2 plus.rightPrecedence (.ofTokens (sumThenColon.drop 2)) =
          .ok pattern s') ∧
        readTokens {} sumThenColon =
          .ok (some (.node (.symbol "Plus" .zero) [.symbol "a" .zero, pattern] false .zero)) := by
  have hplus : OperatorTable.standard.lookup? .plus .infixed =
      some (.infixed .plus "Plus" 310 .flat) := rfl
  have hcolon : OperatorTable.standard.trailing? .rawColon =
      some (.infixed .rawColon "Pattern" 150 .right) := rfl
  refine ⟨_, hplus, _, hcolon, rfl, by decide, exists_ok_of_run' ?_, by decide +kernel⟩
  decide +kernel

end Symbolic.Climbing
