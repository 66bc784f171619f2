import Symbolic.Proofs.Comparisons.Chain

/-!
# Chains of applications

The three operators that apply one operand to another read what is to their right with three
different precedences. `@` asks for its own, so that the rest of a chain is the argument of what
comes before it. `//` and `~` ask for the next higher one: the right operand ends at the next
operator of the chain, and the turns go on from the application made so far. In each case an
application is made of any two operands as they are, also where they are spelled like an operator
that is flat.

## Key results

- `eventually_expression_prefixed`: `f @ g @ x`, by recursion on the right
- `eventually_iterate_postfixed`, `eventually_iterate_infixed`: `x // f // g` and
  `x ~ f ~ y ~ g ~ z`, turn by turn
- `eventually_readTokens_applications`: all of these as whole inputs, and a chain that is cut off
-/

namespace Symbolic.Application

open Reader Parse Filter Comparisons

/-! ## Chains -/

/-- What is applied, and the operator of a given kind next to it. -/
structure Applied (kind : TokenKind) where
  head : Comparisons.Operand
  sign : TokenOf kind

/-- What is applied, between the two operators around it, and the argument to its right. -/
structure Between where
  opening : TokenOf .infixMark
  head : Comparisons.Operand
  closing : TokenOf .infixMark
  argument : Comparisons.Operand

/-- `f @` -/
def Applied.prefixed (link : Applied .prefixMark) : List Token :=
  link.head.tokens ++ [link.sign.1]

/-- `// f` -/
def Applied.postfixed (link : Applied .postfixMark) : List Token :=
  link.sign.1 :: link.head.tokens

/-- `~ f ~ y` -/
def Between.tokens (link : Between) : List Token :=
  link.opening.1 :: (link.head.tokens ++ link.closing.1 :: link.argument.tokens)

/-- The application of one thing to the rest of a prefix chain. -/
def applyPrefixed (link : Applied .prefixMark) (e : Expr) : Expr :=
  .node link.head.tree [e] false (link.head.tree.loc.union e.loc)

/-- The application of one more thing to what is before it in a postfix chain. -/
def applyPostfixed (e : Expr) (link : Applied .postfixMark) : Expr :=
  .node link.head.tree [e] false (e.loc.union link.head.tree.loc)

/-- The application of one more thing to what is before it in an infix chain, and to the argument
    to its right. -/
def applyBetween (e : Expr) (link : Between) : Expr :=
  .node link.head.tree [e, link.argument.tree] false (e.loc.union link.argument.tree.loc)

/-- `f @ g @ x` -/
def prefixTokens (links : List (Applied .prefixMark)) (x : Comparisons.Operand) : List Token :=
  links.flatMap Applied.prefixed ++ x.tokens

/-- `x // f // g` -/
def postfixTokens (x : Comparisons.Operand) (links : List (Applied .postfixMark)) : List Token :=
  x.tokens ++ links.flatMap Applied.postfixed

/-- `x ~ f ~ y ~ g ~ z` -/
def infixTokens (x : Comparisons.Operand) (links : List Between) : List Token :=
  x.tokens ++ links.flatMap Between.tokens

variable {s : State} {rest : List Token} {lhs : Expr} {p : Precedence} {x : Comparisons.Operand}

/-! ## To the right -/

/-- A prefix chain is read up to a token that binds less tightly than it. -/
theorem eventually_expression_prefixed (links : List (Applied .prefixMark)) (hs : s.failures = [])
    (hp : p ≤ 640) (hrest : OperatorTable.standard.Stops p (s.before rest).current.kind) :
    ∀ᶠ room in atTop, Forgetful.expression .standard room p
        (s.before (prefixTokens links x ++ rest)) =
      .ok (links.foldr applyPrefixed x.tree) (s.before rest) := by
  -- induction on the links: all that follows the first one is its argument
  induction links generalizing p with
  | nil => exact x.eventually_read hs (UInt16.le_trans hp (by decide)) hrest
  | cons link links ih =>
    refine eventually_expression ?_
    filter_upwards [link.head.reads s (link.sign.1 :: (prefixTokens links x ++ rest)) p hs
      (UInt16.le_trans hp (by decide)), ih UInt16.le_rfl (stops_of_le hrest hp)] with
      room hhead hargument
    have htokens : prefixTokens (link :: links) x ++ rest =
        link.head.tokens ++ link.sign.1 :: (prefixTokens links x ++ rest) := by
      simp [prefixTokens, Applied.prefixed]
    rw [htokens, hhead, iterate_again_before (trailing_prefixApplication link.sign.2 hp hargument)]
    exact iterate_of_stops hrest

/-! ## Turn by turn -/

/-- Before the rest of a postfix chain an operand ends, if it ends before what follows the chain. -/
theorem stops_postfixed (links : List (Applied .postfixMark))
    (hrest : OperatorTable.standard.Stops 71 (s.before rest).current.kind) :
    OperatorTable.standard.Stops 71
      (s.before (links.flatMap Applied.postfixed ++ rest)).current.kind := by
  cases links with
  | nil => exact hrest
  | cons link links =>
    show OperatorTable.standard.Stops 71 link.sign.1.kind
    rw [link.sign.2]
    decide

/-- A chain of `//` goes on from the application made so far. -/
theorem eventually_iterate_postfixed (links : List (Applied .postfixMark)) (lhs : Expr)
    (hs : s.failures = []) (hp : p ≤ 70)
    (hrest : OperatorTable.standard.Stops 71 (s.before rest).current.kind) :
    ∀ᶠ room in atTop,
      iterate (trailing .standard (Forgetful.expression .standard room) p) lhs
          (s.before (links.flatMap Applied.postfixed ++ rest)) =
        iterate (trailing .standard (Forgetful.expression .standard room) p)
          (links.foldl applyPostfixed lhs) (s.before rest) := by
  refine eventually_iterate_foldl Applied.postfixed (fun lhs link links => ?_)
    (fun _ => List.cons_ne_nil _ _) links lhs
  filter_upwards [link.head.eventually_read hs (by decide) (stops_postfixed links hrest)] with
    room hhead
  exact trailing_postfixApplication link.sign.2 hp hhead

/-- Before the rest of an infix chain an operand ends, if it ends before what follows the chain. -/
theorem stops_between (links : List Between)
    (hrest : OperatorTable.standard.Stops 631 (s.before rest).current.kind) :
    OperatorTable.standard.Stops 631
      (s.before (links.flatMap Between.tokens ++ rest)).current.kind := by
  cases links with
  | nil => exact hrest
  | cons link links =>
    show OperatorTable.standard.Stops 631 link.opening.1.kind
    rw [link.opening.2]
    decide

/-- So does a chain of `~`. -/
theorem eventually_iterate_infixed (links : List Between) (lhs : Expr) (hs : s.failures = [])
    (hp : p ≤ 630) (hrest : OperatorTable.standard.Stops 631 (s.before rest).current.kind) :
    ∀ᶠ room in atTop,
      iterate (trailing .standard (Forgetful.expression .standard room) p) lhs
          (s.before (links.flatMap Between.tokens ++ rest)) =
        iterate (trailing .standard (Forgetful.expression .standard room) p)
          (links.foldl applyBetween lhs) (s.before rest) := by
  refine eventually_iterate_foldl Between.tokens (fun lhs link links => ?_)
    (fun _ => List.cons_ne_nil _ _) links lhs
  -- what is applied ends at the second `~`, and the argument before the next link
  have hclosing : OperatorTable.standard.Stops 631 (s.before (link.closing.1 ::
      (link.argument.tokens ++ (links.flatMap Between.tokens ++ rest)))).current.kind := by
    rw [State.current_before_cons, link.closing.2]
    decide
  filter_upwards [link.head.eventually_read hs (by decide) hclosing,
    link.argument.eventually_read hs (by decide) (stops_between links hrest)] with
    room hhead hargument
  have htokens : link.tokens ++ (links.flatMap Between.tokens ++ rest) =
      link.opening.1 :: (link.head.tokens ++ link.closing.1 :: (link.argument.tokens ++
        (links.flatMap Between.tokens ++ rest))) := by
    simp [Between.tokens]
  rw [htokens]
  exact trailing_infixApplication link.opening.2 hp hhead link.closing.2 hargument

/-- After an infix chain, another `~` with nothing but one operand after it ends in an error. -/
theorem eventually_expression_cut (links : List Between) (sign : TokenOf .infixMark)
    (f : Comparisons.Operand) (hs : s.failures = []) (hbrackets : s.brackets = []) :
    ∀ᶠ room in atTop, Forgetful.expression .standard room 0
        (s.before (infixTokens x links ++ sign.1 :: f.tokens)) =
      .error (.unmatchedDelimiter s.stop .infixMark) (s.before []) := by
  have hsign : OperatorTable.standard.Stops 631 (s.before (sign.1 :: f.tokens)).current.kind := by
    rw [State.current_before_cons, sign.2]
    decide
  -- at the end of the input no bracket is open that could be missed instead
  have hmissing : (s.before []).missing .infixMark = .unmatchedDelimiter s.stop .infixMark := by
    simp [State.missing, State.faultAt, State.before, State.current, hbrackets, Token.endOfInput]
  refine eventually_expression ?_
  filter_upwards [x.reads s (links.flatMap Between.tokens ++ sign.1 :: f.tokens) 0 hs (by decide),
    eventually_iterate_infixed links x.tree hs UInt16.zero_le hsign,
    f.eventually_read hs (by decide) (stops_before_nil s 631)] with room hx hlinks hf
  rw [List.append_nil] at hf
  have hkind : (s.before []).current.kind ≠ .infixMark := by simp
  rw [infixTokens, List.append_assoc, hx, hlinks,
    iterate_error (trailing_infixApplication_error sign.2 UInt16.zero_le hf hkind), hmissing]

/-! ## Whole inputs -/

/-- No token of a chain of `@` ends the input. -/
theorem endFree_prefixTokens (links : List (Applied .prefixMark)) (x : Comparisons.Operand) :
    ∀ t ∈ prefixTokens links x, t.kind ≠ .endOfInput := by
  have hlink : ∀ link ∈ links, ∀ t ∈ link.prefixed, t.kind ≠ .endOfInput := fun link _ => by
    simpa [Applied.prefixed, or_imp, forall_and, link.sign.2] using link.head.endFree
  exact List.forall_mem_append.mpr ⟨List.forall_mem_flatMap.mpr hlink, x.endFree⟩

/-- Nor does one of a chain of `//`. -/
theorem endFree_postfixed (links : List (Applied .postfixMark)) :
    ∀ t ∈ links.flatMap Applied.postfixed, t.kind ≠ .endOfInput := by
  have hlink : ∀ link ∈ links, ∀ t ∈ link.postfixed, t.kind ≠ .endOfInput := fun link _ => by
    simpa [Applied.postfixed, or_imp, forall_and, link.sign.2] using link.head.endFree
  exact List.forall_mem_flatMap.mpr hlink

/-- Nor does one of a chain of `~`. -/
theorem endFree_between (links : List Between) :
    ∀ t ∈ links.flatMap Between.tokens, t.kind ≠ .endOfInput := by
  have hlink : ∀ link ∈ links, ∀ t ∈ link.tokens, t.kind ≠ .endOfInput := fun link _ => by
    simpa [Between.tokens, or_imp, forall_and, link.opening.2, link.closing.2] using
      ⟨link.head.endFree, link.argument.endFree⟩
  exact List.forall_mem_flatMap.mpr hlink

/-- With enough room for nesting, chains of applications of any length are nested as their
    operators say, and every operand is in its place as it is by itself, however it is spelled:
    each thing in a prefix chain is applied to all that follows, in a postfix chain to all that
    comes before, and in an infix chain to all that comes before and to the argument to its right.
    Without this argument, and the operator before it, there is an error where the input ends. -/
theorem eventually_readTokens_applications {ending : List Token}
    (hending : ∀ t ∈ ending.head?, t.kind = .endOfInput) :
    (∀ (links : List (Applied .prefixMark)) (x : Comparisons.Operand), ∀ᶠ limit in atTop,
      readTokens ⟨.standard, limit⟩ (prefixTokens links x ++ ending) =
        .ok (some (links.foldr applyPrefixed x.tree))) ∧
    (∀ (x : Comparisons.Operand) (links : List (Applied .postfixMark)), ∀ᶠ limit in atTop,
      readTokens ⟨.standard, limit⟩ (postfixTokens x links ++ ending) =
        .ok (some (links.foldl applyPostfixed x.tree))) ∧
    (∀ (x : Comparisons.Operand) (links : List Between), ∀ᶠ limit in atTop,
      readTokens ⟨.standard, limit⟩ (infixTokens x links ++ ending) =
        .ok (some (links.foldl applyBetween x.tree))) ∧
    ∀ (x : Comparisons.Operand) (links : List Between) (sign : TokenOf .infixMark)
      (f : Comparisons.Operand), ∀ᶠ limit in atTop,
        readTokens ⟨.standard, limit⟩ (infixTokens x links ++ sign.1 :: f.tokens ++ ending) =
          .error (.unmatchedDelimiter
            (State.ofTokens (infixTokens x links ++ sign.1 :: f.tokens ++ ending)).stop
              .infixMark) := by
  refine ⟨fun links x => ?_, fun x links => ?_, fun x links => ?_, fun x links sign f => ?_⟩
  · -- `@`: the rest of the chain is an expression of its own
    refine eventually_readTokens (endFree_prefixTokens links x)
      (by simp [prefixTokens, x.shape.ne_nil]) hending ?_
    have hread := eventually_expression_prefixed (x := x) links
      (s := .ofTokens (prefixTokens links x ++ ending)) rfl UInt16.zero_le (stops_before_nil _ 0)
    rwa [List.append_nil] at hread
  · -- `//`: turns behind the first operand
    refine x.eventually_extended (endFree_postfixed links) hending fun s hs => ?_
    filter_upwards [eventually_iterate_postfixed links x.tree hs UInt16.zero_le
      (stops_before_nil s 71)] with room hlinks
    rw [List.append_nil] at hlinks
    rw [hlinks, iterate_of_stops (stops_before_nil s 0)]
  · -- `~`: turns as well, each with two operands
    refine x.eventually_extended (endFree_between links) hending fun s hs => ?_
    filter_upwards [eventually_iterate_infixed links x.tree hs UInt16.zero_le
      (stops_before_nil s 631)] with room hlinks
    rw [List.append_nil] at hlinks
    rw [hlinks, iterate_of_stops (stops_before_nil s 0)]
  · -- a chain of `~` that lacks its last operand
    have hkinds : ∀ t ∈ infixTokens x links ++ sign.1 :: f.tokens, t.kind ≠ .endOfInput := by
      refine List.forall_mem_append.mpr ⟨List.forall_mem_append.mpr
        ⟨x.endFree, endFree_between links⟩, List.forall_mem_cons.mpr ⟨?_, f.endFree⟩⟩
      rw [sign.2]
      decide
    refine eventually_readTokens_error hkinds (by simp) hending rfl ?_
    filter_upwards [eventually_expression_cut (x := x) links sign f
      (s := .ofTokens (infixTokens x links ++ sign.1 :: f.tokens ++ ending)) rfl rfl] with
      room hread
    exact ⟨_, hread⟩

/-- The operand `Plus`, spelled like the head of a flat operator. -/
def plusOperand : Comparisons.Operand :=
  .ofAtom (.unplaced .symbol "Plus") (.symbol "Plus" .zero) rfl rfl

/-- `Plus @` and `// Plus` -/
def appliedPlus (kind : TokenKind) (text : String) : Applied kind :=
  ⟨plusOperand, ⟨.unplaced kind text, rfl⟩⟩

/-- `~ Plus ~ a` -/
def betweenPlus : Between :=
  ⟨.placed .infixMark "~" 0 0, plusOperand, .placed .infixMark "~" 0 0, symbolOperand⟩

/-- The node of `Plus` over the arguments. -/
def plusNode (args : List Expr) : Expr :=
  .node (.symbol "Plus" .zero) args false .zero

theorem eventually_readTokens_plusChains :
    (∀ t ∈ [Token.endOfInput .zero].head?, t.kind = .endOfInput) ∧
      (∀ᶠ limit in atTop, readTokens ⟨.standard, limit⟩
        (prefixTokens [appliedPlus .prefixMark "@", appliedPlus .prefixMark "@"] plusOperand ++
          [.endOfInput .zero]) =
            .ok (some (plusNode [plusNode [.symbol "Plus" .zero]]))) ∧
      (∀ᶠ limit in atTop, readTokens ⟨.standard, limit⟩
        (postfixTokens symbolOperand
          [appliedPlus .postfixMark "//", appliedPlus .postfixMark "//"] ++
            [.endOfInput .zero]) = .ok (some (plusNode [plusNode [.symbol "a" .zero]]))) ∧
      (∀ᶠ limit in atTop, readTokens ⟨.standard, limit⟩
        (infixTokens symbolOperand [betweenPlus, betweenPlus] ++ [.endOfInput .zero]) =
          .ok (some (plusNode
            [plusNode [.symbol "a" .zero, .symbol "a" .zero], .symbol "a" .zero]))) ∧
      ∀ᶠ limit in atTop, readTokens ⟨.standard, limit⟩
        (infixTokens symbolOperand [betweenPlus] ++ betweenPlus.opening.1 :: plusOperand.tokens ++
          [.endOfInput .zero]) = .error (.unmatchedDelimiter .zero .infixMark) := by
  have hending : ∀ t ∈ [Token.endOfInput .zero].head?, t.kind = .endOfInput :=
    Token.kind_of_mem_endOfInput
  obtain ⟨hprefixed, hpostfixed, hinfixed, hcut⟩ := eventually_readTokens_applications hending
  exact ⟨hending, hprefixed _ _, hpostfixed _ _, hinfixed _ _,
    hcut _ _ betweenPlus.opening plusOperand⟩

end Symbolic.Application
