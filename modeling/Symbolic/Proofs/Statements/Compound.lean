import Symbolic.Proofs.Comparisons.Chain
import Symbolic.Proofs.Spans.Elements

/-!
# Sequences of statements

After each semicolon a statement is looked for. Where the next token is another semicolon, a comma,
a closing bracket or the end of the input, none is found, and the reader goes back to before that
token. The node of the statements so far is open, so that the next semicolon adds a statement to
it. A sequence of statements in parentheses is closed, and stays one statement of another sequence.

## Key results

- `exists_extend_compoundNode`: one more statement of a sequence
- `eventually_compound`: what is read after a semicolon, whether a statement is there or not
- `exists_expression_statements`: a sequence before any token that ends it
- `exists_readTokens_statements`: whole inputs, parentheses, and elements among others
-/

namespace Symbolic.Statements

open Reader Parse Filter Comparisons Spans

/-! ## Sequences -/

/-- A semicolon and the statement after it, which may be left out. -/
structure Part where
  sign : TokenOf .semicolon
  statement : Option Comparisons.Operand

/-- The tokens of a semicolon and the statement after it. -/
def Part.tokens (part : Part) : List Token :=
  part.sign.1 :: part.statement.elim [] Comparisons.Operand.tokens

/-- What a statement stands for: `Null` where it is left out. -/
def Part.tree (part : Part) : Expr :=
  part.statement.elim (.symbol "Null" part.sign.1.loc) Comparisons.Operand.tree

/-- The tokens of a sequence of statements. -/
def statementTokens (first : Comparisons.Operand) (parts : List Part) : List Token :=
  first.tokens ++ parts.flatMap Part.tokens

/-- The node over a sequence of statements. -/
def compoundNode (first : Comparisons.Operand) (parts : List Part) (parenthesized : Bool)
    (headLoc loc : Location) : Expr :=
  .node (.symbol "CompoundExpression" headLoc) (first.tree :: parts.map Part.tree) parenthesized loc

/-- The tree that a semicolon makes of the tree to its left. -/
def withPart (lhs : Expr) (part : Part) : Expr :=
  .make .standard "CompoundExpression" [lhs, part.tree] (lhs.loc.union part.tree.loc)

variable {s : State} {rest : List Token} {lhs : Expr} {part : Part} {parts : List Part}
  {first : Comparisons.Operand} {p : Precedence}

/-! ## Trees -/

/-- A sealed tree is no open sequence of statements. -/
theorem isOpenNode_of_sealed {e : Expr} (h : Sealed e) :
    e.isOpenNode "CompoundExpression" = false :=
  h _ (by decide)

/-- Neither is the tree of a statement. -/
theorem Part.isOpenNode_tree (part : Part) : part.tree.isOpenNode "CompoundExpression" = false := by
  unfold Part.tree
  cases part.statement with
  | none => rfl
  | some operand => exact isOpenNode_of_sealed operand.sealed

/-- Sequences of statements are flat. -/
theorem isFlat_compound : OperatorTable.standard.isFlat "CompoundExpression" = true := by
  decide +kernel

/-- The first semicolon makes a node over two statements. -/
theorem exists_extend_first (first : Comparisons.Operand) (part : Part) :
    ∃ loc, withPart first.tree part = compoundNode first [part] false loc loc := by
  refine ⟨first.tree.loc.union part.tree.loc, ?_⟩
  simp [withPart, Expr.make, Expr.arguments, isFlat_compound, Expr.contribution,
    isOpenNode_of_sealed first.sealed, part.isOpenNode_tree, compoundNode]

/-- Every other semicolon adds a statement to the node. -/
theorem exists_extend_compoundNode (first : Comparisons.Operand) (parts : List Part) (part : Part)
    (loc : Location) :
    ∃ loc', withPart (compoundNode first parts false loc loc) part =
      compoundNode first (parts ++ [part]) false loc' loc' := by
  refine ⟨(compoundNode first parts false loc loc).loc.union part.tree.loc, ?_⟩
  have hopen : (compoundNode first parts false loc loc).isOpenNode "CompoundExpression" = true := by
    simp [compoundNode, Expr.isOpenNode, Expr.headName?, Expr.symbolName?, Expr.isParenthesized]
  -- the node is open, so it gives up its parts; the new part is not, and stays whole
  have hparts : Expr.contribution "CompoundExpression" (compoundNode first parts false loc loc) =
      first.tree :: parts.map Part.tree := by
    rw [Expr.contribution, if_pos hopen]
    rfl
  have hpart : Expr.contribution "CompoundExpression" part.tree = [part.tree] := by
    simp [Expr.contribution, part.isOpenNode_tree]
  simp only [withPart, Expr.make, Expr.arguments, isFlat_compound, if_true, List.flatMap_cons,
    List.flatMap_nil, hparts, hpart]
  simp [compoundNode]

/-- Statements added one by one make one sequence. -/
theorem exists_foldl_extend (first : Comparisons.Operand) (part : Part) (parts : List Part) :
    ∃ loc, (part :: parts).foldl withPart first.tree =
      compoundNode first (part :: parts) false loc loc := by
  -- induction from the left: the last statement is the last to be added
  induction parts using List.reverseRecOn with
  | nil => exact exists_extend_first first part
  | append_singleton parts last ih =>
    obtain ⟨loc, ih⟩ := ih
    rw [← List.cons_append, List.foldl_append, ih]
    exact exists_extend_compoundNode first (part :: parts) last loc

/-! ## Where a statement ends -/

/-- A semicolon or what ends a sequence is next. -/
def AtStatementEnd (s : State) : Prop :=
  s.current.kind = .semicolon ∨ s.current.kind ∈ chainEnds

/-- Where a statement may end, no operator that is as loose as the semicolon goes on. -/
theorem AtStatementEnd.stops (h : AtStatementEnd s) :
    OperatorTable.standard.Stops 11 s.current.kind := by
  rcases h with hsemicolon | hends
  · rw [hsemicolon]
    decide
  · exact stops_of_mem_chainEnds hends 11

/-- No statement starts there. -/
theorem AtStatementEnd.barred (h : AtStatementEnd s) (room : Nat) :
    Barred (Forgetful.expression .standard (room + 1)) s := by
  rcases h with hsemicolon | hends
  · refine fun q => ⟨s.unexpected, isRecoverable_unexpected s, bind_error ?_⟩
    unfold leading
    rw [peek_bind, hsemicolon]
    rfl
  · exact barred_of_chainEnds room hends

/-- A statement may end before a further one and before what closes the sequence. -/
theorem atStatementEnd_parts (parts : List Part)
    (hrest : (s.before rest).current.kind ∈ chainEnds) :
    AtStatementEnd (s.before (parts.flatMap Part.tokens ++ rest)) := by
  cases parts with
  | nil => exact .inr hrest
  | cons part parts => exact .inl part.sign.2

/-! ## Reading a sequence -/

/-- An operand starts with another token than the end of the input. -/
theorem kind_ne_endOfInput_of_operand (operand : Comparisons.Operand) (s : State)
    (rest : List Token) : (s.before (operand.tokens ++ rest)).current.kind ≠ .endOfInput := by
  obtain ⟨t, tokens, heq⟩ := List.exists_cons_of_ne_nil operand.shape.ne_nil
  rw [heq]
  exact operand.endFree t (by simp [heq])

/-- After a semicolon the statement is read, or `Null` takes its place. -/
theorem eventually_compound (part : Part) (lhs : Expr) (hs : s.failures = [])
    (hend : AtStatementEnd (s.before rest)) :
    ∀ᶠ room in atTop, compound .standard (Forgetful.expression .standard room) lhs
      (.infixed .semicolon "CompoundExpression" 10 .flat) (s.before (part.tokens ++ rest)) =
        .ok (withPart lhs part) (s.before rest) := by
  obtain ⟨sign, statement⟩ := part
  cases statement with
  | none =>
    filter_upwards [eventually_ge_atTop 1] with room hroom
    obtain ⟨room, rfl⟩ : ∃ n, room = n + 1 := ⟨room - 1, by omega⟩
    have hnone := attempt_of_barred (hend.barred room) 11
    show compound _ _ _ _ (s.before (sign.1 :: rest)) = _
    unfold compound
    rw [advance_bind, atFinalEnd_bind]
    -- the end of the input is asked for first, and anything else is tried
    cases ((s.before rest).current.kind == .endOfInput && (s.before rest).brackets.isEmpty) with
    | true => rfl
    | false => exact (bind_ok _ hnone).trans rfl
  | some operand =>
    filter_upwards [operand.eventually_read hs (by decide) hend.stops] with room hread
    have hnotEnd : ((s.before (operand.tokens ++ rest)).current.kind == .endOfInput) = false :=
      beq_eq_false_iff_ne.mpr (kind_ne_endOfInput_of_operand operand s rest)
    show compound _ _ _ _ (s.before (sign.1 :: (operand.tokens ++ rest))) = _
    unfold compound
    rw [advance_bind, atFinalEnd_bind, hnotEnd]
    exact (bind_ok _ (attempt_eq_some hread)).trans rfl

/-- The turns over a sequence, one for each semicolon. -/
theorem eventually_iterate_parts (parts : List Part) (lhs : Expr) (hs : s.failures = [])
    (hrest : (s.before rest).current.kind ∈ chainEnds) :
    ∀ᶠ room in atTop,
      iterate (trailing .standard (Forgetful.expression .standard room) 0) lhs
          (s.before (parts.flatMap Part.tokens ++ rest)) =
        .ok (parts.foldl withPart lhs) (s.before rest) := by
  have hfound : OperatorTable.standard.trailing? .semicolon =
      some (.infixed .semicolon "CompoundExpression" 10 .flat) := rfl
  -- one turn takes one semicolon and what follows it
  have hturn (lhs : Expr) (part : Part) (parts : List Part) : ∀ᶠ room in atTop,
      trailing .standard (Forgetful.expression .standard room) 0 lhs
          (s.before (part.tokens ++ (parts.flatMap Part.tokens ++ rest))) =
        .ok (.again (withPart lhs part)) (s.before (parts.flatMap Part.tokens ++ rest)) := by
    filter_upwards [eventually_compound part lhs hs (atStatementEnd_parts parts hrest)] with
      room hcompound
    exact (trailing_extended part.sign.2 hfound (by decide) (by decide)).trans
      (map_ok _ hcompound)
  filter_upwards [eventually_iterate_foldl Part.tokens hturn (fun _ => List.cons_ne_nil _ _) parts
    lhs] with room hparts
  exact hparts.trans (iterate_of_stops (stops_of_mem_chainEnds hrest 0))

/-- Before anything that ends it, a sequence is read as the node over its statements. -/
theorem exists_expression_statements (first : Comparisons.Operand) (part : Part)
    (parts : List Part) :
    ∃ loc, ∀ (s : State) (rest : List Token), s.failures = [] →
      (s.before rest).current.kind ∈ chainEnds → ∀ᶠ room in atTop,
        Forgetful.expression .standard room 0
            (s.before (statementTokens first (part :: parts) ++ rest)) =
          .ok (compoundNode first (part :: parts) false loc loc) (s.before rest) := by
  obtain ⟨loc, htree⟩ := exists_foldl_extend first part parts
  refine ⟨loc, fun s rest hs hrest => eventually_expression ?_⟩
  filter_upwards [first.reads s ((part :: parts).flatMap Part.tokens ++ rest) 0 hs (by decide),
    eventually_iterate_parts (part :: parts) first.tree hs hrest] with room hfirst hparts
  rw [statementTokens, List.append_assoc, hfirst, hparts, htree]

/-! ## Whole inputs -/

/-- No token of a sequence of statements ends the input. -/
theorem endFree_statementTokens (first : Comparisons.Operand) (parts : List Part) :
    ∀ t ∈ statementTokens first parts, t.kind ≠ .endOfInput := by
  intro t ht
  rcases List.mem_append.mp ht with ht | ht
  · exact first.endFree t ht
  · obtain ⟨part, -, hpart⟩ := List.mem_flatMap.mp ht
    rcases List.mem_cons.mp hpart with rfl | hpart
    · simp [part.sign.2]
    · cases hstatement : part.statement with
      | none => simp [hstatement] at hpart
      | some operand => exact operand.endFree t (by simpa [hstatement] using hpart)

/-- A sequence of statements has tokens. -/
theorem statementTokens_ne_nil (first : Comparisons.Operand) (parts : List Part) :
    statementTokens first parts ≠ [] := by
  simp [statementTokens, first.shape.ne_nil]

/-- A sequence of statements alone. -/
theorem exists_readTokens_alone (first : Comparisons.Operand) (part : Part) (parts : List Part)
    {ending : List Token} (hending : ∀ t ∈ ending.head?, t.kind = .endOfInput) :
    ∃ loc, ∀ᶠ limit in atTop,
      readTokens ⟨.standard, limit⟩ (statementTokens first (part :: parts) ++ ending) =
        .ok (some (compoundNode first (part :: parts) false loc loc)) := by
  obtain ⟨loc, hread⟩ := exists_expression_statements first part parts
  refine ⟨loc, eventually_readTokens (endFree_statementTokens first _)
    (statementTokens_ne_nil first _) hending ?_⟩
  have hexpression := hread (.ofTokens (statementTokens first (part :: parts) ++ ending)) [] rfl
    List.mem_cons_self
  rwa [List.append_nil] at hexpression

/-- A sequence of statements in parentheses. -/
theorem exists_readTokens_grouped (first : Comparisons.Operand) (part : Part) (parts : List Part)
    (opening : TokenOf .leftParen) (closing : TokenOf .rightParen) {ending : List Token}
    (hending : ∀ t ∈ ending.head?, t.kind = .endOfInput) :
    ∃ loc, ∀ᶠ limit in atTop, readTokens ⟨.standard, limit⟩
        (opening.1 :: (statementTokens first (part :: parts) ++ [closing.1]) ++ ending) =
      .ok (some (compoundNode first (part :: parts) true loc
        (opening.1.loc.union closing.1.loc))) := by
  obtain ⟨loc, hread⟩ := exists_expression_statements first part parts
  refine ⟨loc, eventually_readTokens ?_ (List.cons_ne_nil _ _) hending ?_⟩
  · simpa [or_imp, forall_and, opening.2, closing.2] using endFree_statementTokens first _
  · -- the closing parenthesis ends the sequence inside, and is itself the last token
    have hclosing : (((State.ofTokens (opening.1 :: (statementTokens first (part :: parts) ++
        [closing.1]) ++ ending)).within opening.1.loc).before [closing.1]).current.kind ∈
          chainEnds := by
      rw [State.current_before_cons, closing.2]
      decide
    refine eventually_expression_of_chain ?_ (stops_endOfInput 0)
    filter_upwards [hread _ _ rfl hclosing] with room hinside
    exact chain_of_leading (leading_group opening.2 rfl hinside closing.2)

/-- A sequence of statements among the elements of other brackets. -/
theorem exists_readTokens_among (first : Comparisons.Operand) (part : Part) (parts : List Part)
    {before after : List Neighbour} {tokens ending : List Token} {tree : Expr}
    (henclosed : Enclosed (among before (statementTokens first (part :: parts)) after)
      (treesAmong before (compoundNode first (part :: parts) false .zero .zero).eraseLocations
        after) tokens tree) (hending : ∀ t ∈ ending.head?, t.kind = .endOfInput) :
    ∃ e : Expr, e.eraseLocations = tree ∧
      ∀ᶠ limit in atTop, readTokens ⟨.standard, limit⟩ (tokens ++ ending) = .ok (some e) := by
  obtain ⟨loc, hread⟩ := exists_readTokens_alone first part parts Token.kind_of_mem_nil
  obtain ⟨limit, hlimit⟩ := hread.exists
  rw [List.append_nil] at hlimit
  have helement : IsElement (statementTokens first (part :: parts))
      (compoundNode first (part :: parts) false .zero .zero).eraseLocations := by
    -- the location does not count
    rw [show (compoundNode first (part :: parts) false .zero .zero).eraseLocations =
      (compoundNode first (part :: parts) false loc loc).eraseLocations from rfl]
    exact .accepted (endFree_statementTokens first _) hlimit
  exact exists_readTokens_of_isElement helement (statementTokens_ne_nil first _) henclosed hending

/-- With enough room for nesting, statements with semicolons between them are read as one node that
    has just these statements for its children, in order, with `Null` for each that is left out:
    by themselves, in parentheses, and as an element among others in anything that holds a
    sequence of elements. -/
theorem exists_readTokens_statements (first : Comparisons.Operand) (part : Part)
    (parts : List Part) {ending : List Token} (hending : ∀ t ∈ ending.head?, t.kind = .endOfInput) :
    (∃ loc, ∀ᶠ limit in atTop,
      readTokens ⟨.standard, limit⟩ (statementTokens first (part :: parts) ++ ending) =
        .ok (some (compoundNode first (part :: parts) false loc loc))) ∧
    (∀ (opening : TokenOf .leftParen) (closing : TokenOf .rightParen),
      ∃ loc, ∀ᶠ limit in atTop, readTokens ⟨.standard, limit⟩
          (opening.1 :: (statementTokens first (part :: parts) ++ [closing.1]) ++ ending) =
        .ok (some (compoundNode first (part :: parts) true loc
          (opening.1.loc.union closing.1.loc)))) ∧
    ∀ (before after : List Neighbour) (tokens : List Token) (tree : Expr),
      Enclosed (among before (statementTokens first (part :: parts)) after)
        (treesAmong before (compoundNode first (part :: parts) false .zero .zero).eraseLocations
          after) tokens tree →
      ∃ e : Expr, e.eraseLocations = tree ∧
        ∀ᶠ limit in atTop, readTokens ⟨.standard, limit⟩ (tokens ++ ending) = .ok (some e) :=
  ⟨exists_readTokens_alone first part parts hending,
    fun opening closing => exists_readTokens_grouped first part parts opening closing hending,
    fun _ _ _ _ henclosed => exists_readTokens_among first part parts henclosed hending⟩

/-- The statements `(a;a)` in parentheses. -/
def groupedStatements : Comparisons.Operand where
  tokens := [⟨.leftParen, "(", .zero⟩, ⟨.symbol, "a", .zero⟩, ⟨.semicolon, ";", .zero⟩,
    ⟨.symbol, "a", .zero⟩, ⟨.rightParen, ")", .zero⟩]
  tree := .node (.symbol "CompoundExpression" .zero) [.symbol "a" .zero, .symbol "a" .zero] true
    .zero
  limit := 3
  shape := @OperandTokens.group _ _
    [⟨.symbol, "a", .zero⟩, ⟨.semicolon, ";", .zero⟩, ⟨.symbol, "a", .zero⟩]
    rfl rfl (.plain rfl (.plain rfl (.plain rfl .nil)))
  endFree := by decide
  accepted := by decide +kernel

/-- The semicolons of `a; ;(a;a);` with the statements after them. -/
def holes : List Part :=
  [⟨.placed .semicolon ";" 1 2, none⟩, ⟨.placed .semicolon ";" 3 4, some groupedStatements⟩,
    ⟨.placed .semicolon ";" 9 10, none⟩]

/-- The children of `a; ;(a;a);` up to locations: four statements, two of which are left out. -/
def holeTrees : List Expr :=
  [.symbol "a" .zero, .symbol "Null" .zero, groupedStatements.tree, .symbol "Null" .zero]

/-- The tokens of `f[a; ;(a;a);]`. -/
def calledHoles : List Token :=
  ⟨.symbol, "f", .zero⟩ :: ⟨.leftBracket, "[", .zero⟩ ::
    (among [] (statementTokens symbolOperand holes) [] ++ [⟨.rightBracket, "]", .zero⟩])

/-- Missing statements are `Null`, both at the end of the input and in a call. -/
theorem exists_readTokens_holes :
    (∀ t ∈ [Token.endOfInput .zero].head?, t.kind = .endOfInput) ∧
      (compoundNode symbolOperand holes false .zero .zero).eraseLocations =
        .node (.symbol "CompoundExpression" .zero) holeTrees false .zero ∧
      (∃ loc, ∀ᶠ limit in atTop,
        readTokens ⟨.standard, limit⟩ (statementTokens symbolOperand holes ++
          [.endOfInput .zero]) = .ok (some (compoundNode symbolOperand holes false loc loc))) ∧
      ∃ e : Expr, e.eraseLocations = .node (.symbol "f" .zero)
          [.node (.symbol "CompoundExpression" .zero) holeTrees false .zero] true .zero ∧
        ∀ᶠ limit in atTop, readTokens ⟨.standard, limit⟩ (calledHoles ++ [.endOfInput .zero]) =
          .ok (some e) := by
  have hending : ∀ t ∈ [Token.endOfInput .zero].head?, t.kind = .endOfInput :=
    Token.kind_of_mem_endOfInput
  obtain ⟨halone, -, hamong⟩ := exists_readTokens_statements symbolOperand
    ⟨.placed .semicolon ";" 1 2, none⟩ holes.tail hending
  have hcalled : Enclosed (among [] (statementTokens symbolOperand holes) [])
      (treesAmong [] (compoundNode symbolOperand holes false .zero .zero).eraseLocations [])
      calledHoles (.node (.symbol "f" .zero)
        [.node (.symbol "CompoundExpression" .zero) holeTrees false .zero] true .zero) :=
    .call (f := .symbol "f" .zero) rfl rfl rfl rfl
  exact ⟨hending, rfl, halone, hamong [] [] calledHoles _ hcalled⟩

end Symbolic.Statements
