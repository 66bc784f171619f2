import Symbolic.Proofs.Climbing.Chain

/-!
# Operators that do not chain

A chain of an operator that does not associate is refused at its second occurrence: there the
operand before it is an open node of the operator. The right operand never gets that far, as it is
read one level higher. At the largest precedence there is no higher level, so the right operand
takes in the rest of the chain, and no operand is ever refused. Parentheses keep a chain apart at
any precedence.

## Key results

- `expression_refused`: the second operator of a chain is refused
- `expression_chain`: at the largest precedence a chain is read from the right
- `expression_leftGroup`, `expression_rightGroup`: parentheses on either side
- `readTokens_unchainable`: whole inputs
-/

namespace Symbolic.Climbing

open Reader Parse

/-- An infix operator that does not associate and is read by the general rule. -/
structure Unchainable (table : OperatorTable) where
  kind : TokenKind
  op : Operator
  found : table.lookup? kind .infixed = some op
  general : kind.hasOwnRule = false
  nonAssociative : op.associativity = .nonAssociative

/-- A sign of an operator with the symbol after it. -/
structure SymbolLink (kind : TokenKind) where
  sign : TokenOf kind
  symbol : TokenOf .symbol

variable {table : OperatorTable} {u : Unchainable table} {kind : TokenKind}

/-- The tokens of symbols with signs of an operator between them. -/
def chainTokens (x : TokenOf .symbol) (links : List (SymbolLink kind)) : List Token :=
  x :: links.flatMap fun link => [link.sign.1, link.symbol.1]

/-- The node over two operands. -/
def joined (head : String) (a b : Expr) : Expr :=
  .node (.symbol head (a.loc.union b.loc)) [a, b] false (a.loc.union b.loc)

/-- The tree of a chain that is read from the right. -/
def rightTree (table : OperatorTable) (head : String) (x : TokenOf .symbol) :
    List (SymbolLink kind) → Expr
  | [] => .ofSymbol x
  | link :: links =>
    let rhs := rightTree table head link.symbol links
    .make table head [.ofSymbol x, rhs] (x.1.loc.union rhs.loc)

variable {s : State} {rest : List Token} {p : Precedence} {room : Nat} {e lhs rhs : Expr}
  {x y z : TokenOf .symbol} {links : List (SymbolLink u.kind)} {sign sign' : TokenOf u.kind}
  {opening : TokenOf .leftParen} {closing : TokenOf .rightParen}

/-! ## One operator -/

/-- The operator has the kind of its token. -/
theorem Unchainable.kind_op (u : Unchainable table) : u.op.kind = u.kind :=
  (Prod.mk.inj (OperatorTable.key_of_lookup? u.found)).1

/-- Its right operand is read one level higher. -/
theorem Unchainable.rightPrecedence_op (u : Unchainable table) :
    u.op.rightPrecedence = u.op.precedence.next := by
  simp [Operator.rightPrecedence, u.nonAssociative]

/-- Below the largest precedence the operator ends its own right operand. -/
theorem Unchainable.stops (u : Unchainable table) (h : u.op.precedence ≠ 65535) :
    table.Stops u.op.rightPrecedence u.kind := by
  refine stops_of_infixed u.found (TokenKind.ne_rawColon_of_general u.general) ?_
  rw [u.rightPrecedence_op, UInt16.lt_iff_toNat_lt, Precedence.toNat_next]
  have hlt : u.op.precedence.toNat < 65536 := UInt16.toNat_lt _
  have hne : u.op.precedence.toNat ≠ 65535 := fun heq => h (UInt16.toNat_inj.mp heq)
  omega

/-- Operands that are no open nodes of the operator are joined by it. -/
theorem make_eq_joined {head : String} {a b : Expr} (ha : a.isOpenNode head = false)
    (hb : b.isOpenNode head = false) :
    Expr.make table head [a, b] (a.loc.union b.loc) = joined head a b := by
  simp [Expr.make, Expr.arguments, Expr.contribution, ha, hb, joined]

/-- A node that a rule makes is open. -/
theorem isOpenNode_make (head : String) (args : List Expr) (loc : Location) :
    (Expr.make table head args loc).isOpenNode head = true := by
  simp [Expr.make, Expr.isOpenNode, Expr.headName?, Expr.symbolName?, Expr.isParenthesized]

/-- A symbol is no open node. -/
theorem isOpenNode_ofSymbol (head : String) (x : TokenOf .symbol) :
    (Expr.ofSymbol x).isOpenNode head = false := rfl

/-- A node in parentheses is not open. -/
theorem isOpenNode_grouped_joined (head : String) (a b : Expr) (loc : Location) :
    (grouped loc (joined head a b)).isOpenNode head = false := by
  simp [grouped, joined, Expr.isOpenNode, Expr.isParenthesized]

/-- After an operand that is no open node of it, the operator takes the operand after it. -/
theorem trailing_sign {expr : Precedence → Parse Expr} {tokens : List Token} {s' : State}
    (sign : TokenOf u.kind) (hlhs : lhs.isOpenNode u.op.head = false) (hp : p ≤ u.op.precedence)
    (h : expr u.op.rightPrecedence (s.before tokens) = .ok rhs s') :
    trailing table expr p lhs (s.before (sign.1 :: tokens)) =
      .ok (.again (.make table u.op.head [lhs, rhs] (lhs.loc.union rhs.loc))) s' :=
  trailing_of_allowed sign.2 u.found u.general (by simp [isForbiddenChain, hlhs]) hp h

/-- After an open node of it, the operator is refused. -/
theorem trailing_sign_error {expr : Precedence → Parse Expr} {tokens : List Token}
    (hlhs : lhs.isOpenNode u.op.head = true) (hp : p ≤ u.op.precedence) :
    trailing table expr p lhs (s.before (sign.1 :: tokens)) =
      .error (.nonAssociativeChain sign.1.loc u.kind) (s.before (sign.1 :: tokens)) := by
  have hchain : isForbiddenChain lhs u.op = true := by
    simp [isForbiddenChain, u.nonAssociative, hlhs]
  rw [trailing_eq_infixedNode sign.2 u.found u.general hp]
  refine map_error _ ?_
  unfold infixedNode
  rw [if_pos hchain]
  show EStateM.Result.error (SyntaxError.nonAssociativeChain sign.1.loc u.op.kind) _ = _
  rw [u.kind_op]

/-! ## Chains -/

section

variable (hbare : Bare table)
include hbare

/-- A symbol before a token that ends operands is read as that symbol. -/
theorem expression_ofSymbol (hstop : table.Stops p (s.before rest).current.kind) :
    Forgetful.expression table (room + 1) p (s.before (x.1 :: rest)) =
      .ok (.ofSymbol x) (s.before rest) :=
  chain_ok (leading_symbol (hbare .symbol (by decide) .prefixed) x) (iterate_of_stops hstop)

/-- Below the largest precedence the second operator of a chain is refused. -/
theorem expression_refused (h : u.op.precedence ≠ 65535) :
    Forgetful.expression table (room + 2) 0
        (s.before (x.1 :: sign.1 :: y.1 :: sign'.1 :: rest)) =
      .error (.nonAssociativeChain sign'.1.loc u.kind) (s.before (sign'.1 :: rest)) := by
  have hrhs : Forgetful.expression table (room + 1) u.op.rightPrecedence
      (s.before (y.1 :: sign'.1 :: rest)) = .ok (.ofSymbol y) (s.before (sign'.1 :: rest)) :=
    expression_ofSymbol hbare (by rw [State.current_before_cons, sign'.2]; exact u.stops h)
  have hfirst := trailing_sign sign (isOpenNode_ofSymbol u.op.head x)
    UInt16.zero_le hrhs
  refine (chain_of_leading (leading_symbol (hbare .symbol (by decide) .prefixed) x)).trans ?_
  rw [iterate_again hfirst (by simp)]
  exact iterate_error (trailing_sign_error (isOpenNode_make _ _ _) UInt16.zero_le)

/-- At the largest precedence a chain is read from the right. -/
theorem expression_chain (h : u.op.precedence = 65535) (hroom : links.length < room) :
    Forgetful.expression table room p (s.before (chainTokens x links)) =
      .ok (rightTree table u.op.head x links) (s.before []) := by
  -- no precedence is higher, so each turn takes the operator
  have hp : ∀ q : Precedence, q ≤ u.op.precedence := by
    intro q
    rw [h, UInt16.le_iff_toNat_le]
    exact Nat.le_of_lt_succ q.toNat_lt
  induction links generalizing room x p with
  | nil =>
    obtain ⟨room, rfl⟩ : ∃ n, room = n + 1 := ⟨room - 1, by omega⟩
    exact expression_ofSymbol hbare (hbare.stops (.inl rfl) p)
  | cons link links ih =>
    rw [List.length_cons] at hroom
    obtain ⟨room, rfl⟩ : ∃ n, room = n + 1 := ⟨room - 1, by omega⟩
    -- the right operand is read at the same level, and takes in the rest of the chain
    have hrhs := ih (x := link.symbol) (p := u.op.rightPrecedence) (Nat.lt_of_succ_lt_succ hroom)
    have hturn := trailing_sign link.sign (isOpenNode_ofSymbol u.op.head x) (hp p) hrhs
    refine (chain_of_leading (leading_symbol (hbare .symbol (by decide) .prefixed) x)).trans ?_
    refine (iterate_again hturn (by simp)).trans ?_
    exact iterate_of_stops (hbare.stops (.inl rfl) p)

/-! ## Parentheses -/

/-- Two symbols with the operator between them, before what ends every operand. -/
theorem expression_pair (hrest : ∀ q, table.Stops q (s.before rest).current.kind) :
    Forgetful.expression table (room + 2) 0 (s.before (x.1 :: sign.1 :: y.1 :: rest)) =
      .ok (joined u.op.head (.ofSymbol x) (.ofSymbol y)) (s.before rest) := by
  have hrhs : Forgetful.expression table (room + 1) u.op.rightPrecedence
      (s.before (y.1 :: rest)) = .ok (.ofSymbol y) (s.before rest) :=
    expression_ofSymbol hbare (hrest _)
  have hturn := trailing_sign sign (isOpenNode_ofSymbol u.op.head x)
    UInt16.zero_le hrhs
  rw [make_eq_joined (isOpenNode_ofSymbol _ x) (isOpenNode_ofSymbol _ y)] at hturn
  refine (chain_of_leading (leading_symbol (hbare .symbol (by decide) .prefixed) x)).trans ?_
  refine (iterate_again hturn ?_).trans (iterate_of_stops (hrest 0))
  simp only [State.rest_before, List.length_cons]
  omega

/-- Two operands in parentheses lead an expression. -/
theorem leading_pair :
    leading table (Forgetful.expression table (room + 2))
        (s.before (opening.1 :: x.1 :: sign.1 :: y.1 :: closing.1 :: rest)) =
      .ok (grouped (opening.1.loc.union closing.1.loc)
        (joined u.op.head (.ofSymbol x) (.ofSymbol y))) (s.before rest) :=
  leading_group opening.2 (hbare .leftParen (by decide) .prefixed)
    (expression_pair hbare (hbare.stops (.inr closing.2))) closing.2

/-- `(x op y) op z` -/
theorem expression_leftGroup :
    Forgetful.expression table (room + 3) 0 (s.before
        [opening.1, x.1, sign.1, y.1, closing.1, sign'.1, z.1]) =
      .ok (joined u.op.head (grouped (opening.1.loc.union closing.1.loc)
        (joined u.op.head (.ofSymbol x) (.ofSymbol y))) (.ofSymbol z)) (s.before []) := by
  have hrest : ∀ q, table.Stops q (s.before []).current.kind := hbare.stops (.inl rfl)
  have hrhs : Forgetful.expression table (room + 2) u.op.rightPrecedence
      (s.before [z.1]) = .ok (.ofSymbol z) (s.before []) :=
    expression_ofSymbol hbare (hrest _)
  have hturn := trailing_sign sign' (isOpenNode_grouped_joined u.op.head
    (.ofSymbol x) (.ofSymbol y) (opening.1.loc.union closing.1.loc)) UInt16.zero_le hrhs
  rw [make_eq_joined (isOpenNode_grouped_joined _ _ _ _) (isOpenNode_ofSymbol _ z)] at hturn
  refine (chain_of_leading (leading_pair hbare)).trans ?_
  exact (iterate_again hturn (by simp)).trans (iterate_of_stops (hrest 0))

/-- `x op (y op z)` -/
theorem expression_rightGroup :
    Forgetful.expression table (room + 4) 0 (s.before
        [x.1, sign.1, opening.1, y.1, sign'.1, z.1, closing.1]) =
      .ok (joined u.op.head (.ofSymbol x) (grouped (opening.1.loc.union closing.1.loc)
        (joined u.op.head (.ofSymbol y) (.ofSymbol z)))) (s.before []) := by
  have hrest : ∀ q, table.Stops q (s.before []).current.kind := hbare.stops (.inl rfl)
  have hrhs : Forgetful.expression table (room + 3) u.op.rightPrecedence
      (s.before [opening.1, y.1, sign'.1, z.1, closing.1]) =
        .ok (grouped (opening.1.loc.union closing.1.loc)
          (joined u.op.head (.ofSymbol y) (.ofSymbol z))) (s.before []) :=
    chain_ok (leading_pair hbare) (iterate_of_stops (hrest _))
  -- parentheses close the group, so the outer operator is not chained
  have hturn := trailing_sign sign (isOpenNode_ofSymbol u.op.head x)
    UInt16.zero_le hrhs
  rw [make_eq_joined (isOpenNode_ofSymbol _ x) (isOpenNode_grouped_joined _ _ _ _)] at hturn
  refine (chain_of_leading (leading_symbol (hbare .symbol (by decide) .prefixed) x)).trans ?_
  exact (iterate_again hturn (by simp)).trans (iterate_of_stops (hrest 0))

end

/-! ## Whole inputs -/

/-- The operator is not the end of the input. -/
theorem Unchainable.kind_ne_endOfInput (hbare : Bare table) (u : Unchainable table) :
    u.kind ≠ .endOfInput := by
  intro hkind
  have hfound := u.found
  rw [hkind, hbare .endOfInput (by decide) .infixed] at hfound
  cases hfound

/-- No token of a chain ends the input. -/
theorem endFree_chainTokens (hkind : kind ≠ .endOfInput) (x : TokenOf .symbol)
    (links : List (SymbolLink kind)) : ∀ t ∈ chainTokens x links, t.kind ≠ .endOfInput := by
  intro t ht
  rcases List.mem_cons.mp ht with rfl | ht
  · simp [x.2]
  · obtain ⟨link, -, hlink⟩ := List.mem_flatMap.mp ht
    simp only [List.mem_cons, List.not_mem_nil, or_false] at hlink
    rcases hlink with rfl | rfl
    · rwa [link.sign.2]
    · simp [link.symbol.2]

/-- A chain is refused at its second operator. -/
theorem readTokens_refused (hbare : Bare table) (h : u.op.precedence ≠ 65535)
    {first second : SymbolLink u.kind} {after : List Token} :
    readTokens ⟨table, room + 2⟩ (chainTokens x (first :: second :: links) ++ after) =
      .error (.nonAssociativeChain second.sign.1.loc u.kind) := by
  have hkind := u.kind_ne_endOfInput hbare
  -- the state of the reader before the first two links
  obtain ⟨rest, hrest⟩ : ∃ rest, (State.ofTokens (chainTokens x (first :: second :: links) ++
      after)).rest = x.1 :: first.sign.1 :: first.symbol.1 :: second.sign.1 :: rest := by
    simp [State.ofTokens, chainTokens, List.takeWhile_cons, x.2, first.sign.2, first.symbol.2,
      second.sign.2, hkind]
  obtain ⟨s', herror⟩ : ∃ s', Forgetful.expression table (room + 2) 0
      (State.ofTokens (chainTokens x (first :: second :: links) ++ after)) =
        .error (.nonAssociativeChain second.sign.1.loc u.kind) s' := by
    rw [← State.before_rest (s := .ofTokens _), hrest]
    exact ⟨_, expression_refused hbare h⟩
  refine readTokens_of_expression_error ?_ rfl herror
  simp [State.current, hrest, x.2]

/-- Below the largest precedence a chain of at least two operators is refused at the second of
    them, whatever comes after it. At the largest precedence every chain is read, from the right.
    At any precedence parentheses make operands of their own. -/
theorem readTokens_unchainable (hbare : Bare table) (u : Unchainable table) :
    (u.op.precedence ≠ 65535 → ∀ (x : TokenOf .symbol) (first second : SymbolLink u.kind)
      (links : List (SymbolLink u.kind)) (after : List Token) (limit : Nat), 2 ≤ limit →
      readTokens ⟨table, limit⟩ (chainTokens x (first :: second :: links) ++ after) =
        .error (.nonAssociativeChain second.sign.1.loc u.kind)) ∧
    (u.op.precedence = 65535 → ∀ (x : TokenOf .symbol) (links : List (SymbolLink u.kind))
      (ending : List Token) (limit : Nat), (∀ t ∈ ending.head?, t.kind = .endOfInput) →
      links.length < limit →
      readTokens ⟨table, limit⟩ (chainTokens x links ++ ending) =
        .ok (some (rightTree table u.op.head x links))) ∧
    ∀ (x y z : TokenOf .symbol) (sign sign' : TokenOf u.kind) (opening : TokenOf .leftParen)
      (closing : TokenOf .rightParen) (ending : List Token) (limit : Nat),
      (∀ t ∈ ending.head?, t.kind = .endOfInput) → 4 ≤ limit →
      readTokens ⟨table, limit⟩
          ([opening.1, x.1, sign.1, y.1, closing.1, sign'.1, z.1] ++ ending) =
        .ok (some (joined u.op.head (grouped (opening.1.loc.union closing.1.loc)
          (joined u.op.head (.ofSymbol x) (.ofSymbol y))) (.ofSymbol z))) ∧
      readTokens ⟨table, limit⟩
          ([x.1, sign.1, opening.1, y.1, sign'.1, z.1, closing.1] ++ ending) =
        .ok (some (joined u.op.head (.ofSymbol x) (grouped (opening.1.loc.union closing.1.loc)
          (joined u.op.head (.ofSymbol y) (.ofSymbol z))))) := by
  have hkind := u.kind_ne_endOfInput hbare
  refine ⟨fun h x first second links after limit hlimit => ?_,
    fun h x links ending limit hending hlimit => ?_,
    fun x y z sign sign' opening closing ending limit hending hlimit => ?_⟩
  · obtain ⟨room, rfl⟩ : ∃ n, limit = n + 2 := ⟨limit - 2, by omega⟩
    exact readTokens_refused hbare h
  · refine readTokens_of_expression (endFree_chainTokens hkind x links) (by simp [chainTokens])
      hending (expression_chain hbare h hlimit)
  · obtain ⟨room, rfl⟩ : ∃ n, limit = n + 4 := ⟨limit - 4, by omega⟩
    refine ⟨readTokens_of_expression ?_ (by simp) hending (expression_leftGroup hbare),
      readTokens_of_expression ?_ (by simp) hending (expression_rightGroup hbare)⟩
    -- no token of the two groupings is the end of the input
    all_goals simp [opening.2, closing.2, x.2, y.2, z.2, sign.2, sign'.2, hkind]

/-- A table whose only operator is a test that does not chain. -/
def testTable (precedence : Precedence) : OperatorTable where
  operators := [.infixed .patternTest "PatternTest" precedence .nonAssociative]
  named := []
  distinct := by simp

def testOperator (precedence : Precedence) : Unchainable (testTable precedence) where
  kind := .patternTest
  op := .infixed .patternTest "PatternTest" precedence .nonAssociative
  found := rfl
  general := rfl
  nonAssociative := rfl

/-- A table with the one operator is bare. -/
theorem bare_testTable (precedence : Precedence) : Bare (testTable precedence) := by
  intro kind hkind fixity
  simp only [List.mem_cons, List.not_mem_nil, or_false] at hkind
  rcases hkind with rfl | rfl | rfl | rfl <;> rfl

/-- The signs and symbols of `a ? b ? c` after the first symbol. -/
def testLinks : List (SymbolLink .patternTest) :=
  [⟨.placed .patternTest "?" 2 3, .placed .symbol "b" 4 5⟩,
    ⟨.placed .patternTest "?" 6 7, .placed .symbol "c" 8 9⟩]

/-- The tokens of `a ? b ? c`. -/
def testChain : List Token :=
  chainTokens (.placed .symbol "a" 0 1) testLinks ++ [.endOfInput ⟨9, 9⟩]

/-- The tokens of `(a?b)?c`. -/
def groupedTests : List Token :=
  [⟨.leftParen, "(", ⟨0, 1⟩⟩, ⟨.symbol, "a", ⟨1, 2⟩⟩, ⟨.patternTest, "?", ⟨2, 3⟩⟩,
    ⟨.symbol, "b", ⟨3, 4⟩⟩, ⟨.rightParen, ")", ⟨4, 5⟩⟩, ⟨.patternTest, "?", ⟨5, 6⟩⟩,
    ⟨.symbol, "c", ⟨6, 7⟩⟩, .endOfInput ⟨7, 7⟩]

def groupedTestsTree : Expr :=
  joined "PatternTest" (grouped ⟨0, 5⟩ (joined "PatternTest" (.symbol "a" ⟨1, 2⟩)
    (.symbol "b" ⟨3, 4⟩))) (.symbol "c" ⟨6, 7⟩)

/-- `a ? b ? c` is refused at its second operator, or read from the right; `(a?b)?c` is read. -/
theorem readTokens_testChain :
    Bare (testTable 680) ∧ (testOperator 680).op.precedence ≠ 65535 ∧
      readTokens ⟨testTable 680, 128⟩ testChain =
        .error (.nonAssociativeChain ⟨6, 7⟩ .patternTest) ∧
    Bare (testTable 65535) ∧ (testOperator 65535).op.precedence = 65535 ∧
      readTokens ⟨testTable 65535, 128⟩ testChain =
        .ok (some (rightTree (testTable 65535) "PatternTest" (.placed .symbol "a" 0 1)
          testLinks)) ∧
      readTokens ⟨testTable 65535, 4⟩ groupedTests = .ok (some groupedTestsTree) := by
  refine ⟨bare_testTable 680, by decide, ?_, bare_testTable 65535, rfl, ?_, ?_⟩
  · exact (readTokens_unchainable (bare_testTable 680) (testOperator 680)).1 (by decide) _ _ _ []
      [.endOfInput ⟨9, 9⟩] 128 (by decide)
  · exact (readTokens_unchainable (bare_testTable 65535) (testOperator 65535)).2.1 rfl _ testLinks
      [.endOfInput ⟨9, 9⟩] 128 Token.kind_of_mem_endOfInput (by decide)
  · exact ((readTokens_unchainable (bare_testTable 65535) (testOperator 65535)).2.2
      (.placed .symbol "a" 1 2) (.placed .symbol "b" 3 4) (.placed .symbol "c" 6 7)
      (.placed .patternTest "?" 2 3) (.placed .patternTest "?" 5 6) (.placed .leftParen "(" 0 1)
      (.placed .rightParen ")" 4 5) _ 4
      Token.kind_of_mem_endOfInput (by decide)).1

/-- At the largest precedence `a ? b ? c` is not refused, however much room there is. -/
theorem not_refused_testChain :
    ¬∃ enough, ∀ limit, enough ≤ limit → readTokens ⟨testTable 65535, limit⟩ testChain =
      .error (.nonAssociativeChain ⟨6, 7⟩ .patternTest) := by
  rintro ⟨enough, hrefused⟩
  have hroom : testLinks.length < enough + 3 := Nat.lt_add_left enough (by decide)
  have hread : readTokens ⟨testTable 65535, enough + 3⟩ testChain =
      .ok (some (rightTree (testTable 65535) "PatternTest" (.placed .symbol "a" 0 1)
        testLinks)) :=
    readTokens_of_expression (endFree_chainTokens (by decide) _ testLinks)
      (by simp [chainTokens]) Token.kind_of_mem_endOfInput
      (expression_chain (u := testOperator 65535) (bare_testTable 65535) rfl hroom)
  cases hread.symm.trans (hrefused (enough + 3) (by omega))

end Symbolic.Climbing
