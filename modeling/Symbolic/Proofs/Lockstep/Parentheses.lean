import Symbolic.Proofs.Lockstep.Elements
import Symbolic.Proofs.Reader.Room
import Symbolic.Proofs.Trees.Flat

/-!
# An input in parentheses

Parentheses are read as one expression and the closing parenthesis. At top level, and in elements
of sequences, expressions that are left over side by side are multiplied; within parentheses
nothing can be left over. So an input may be put in parentheses if it is read as one expression. If
it is a product of expressions side by side, which takes open spans, the closing parenthesis is
missed after the first of them.

## Key results

- `exists_factors_of_program`: an input is read as the product of its expressions, all of them
  open spans but the last
- `readTokens_parenthesized`: what becomes of an accepted input in parentheses
-/

namespace Symbolic.Reader

open Parse Filter

variable {s s' t : State} {room limit : Nat} {tokens inside : List Token}
  {opening closing : Token} {e v : Expr} {exprs : List Expr} {e? : Option Expr}

/-! ## Expressions side by side -/

/-- After an expression there may be more, if this one is an open span. -/
theorem exists_factors_of_program (hv : expression .standard room 0 t = .ok v s)
    (hs : iterate (programTurn (expression .standard room)) (exprs ++ [v]) s = .ok e? s') :
    ∃ more, e? = Expr.juxtaposed? (exprs ++ v :: more) ∧
      (∀ factor ∈ (v :: more).dropLast, factor.IsOpenSpan) ∧
      (more = [] ↔ s.current.kind = .endOfInput) := by
  -- induction on what remains of the input, which every expression makes shorter
  induction hn : s.rest.length using Nat.strongRecOn generalizing exprs v t s with
  | _ n ih =>
    subst hn
    by_cases hend : s.current.kind = .endOfInput
    · have hdone : programTurn (expression .standard room) (exprs ++ [v]) s =
          .ok (.done (Expr.juxtaposed? (exprs ++ [v]))) s := by
        unfold programTurn
        rw [peek_bind, if_pos hend]
        rfl
      rw [iterate_done hdone] at hs
      cases hs
      exact ⟨[], rfl, by simp, iff_of_true rfl hend⟩
    · obtain ⟨v', s₁, hv', hs, hlt⟩ := exists_again_of_program hend hs
      obtain ⟨more, rfl, hspans, -⟩ := ih _ hlt hv' hs rfl
      refine ⟨v' :: more, by simp, fun factor hmem => ?_,
        iff_of_false (List.cons_ne_nil _ _) hend⟩
      rw [List.dropLast_cons_cons, List.mem_cons] at hmem
      rcases hmem with rfl | hmem
      · exact isOpenSpan_of_expression hv hv'
      · exact hspans factor hmem

/-- An input of several expressions is a product left over. -/
theorem isLeftOver_of_juxtaposed? {more : List Expr} (hne : more ≠ [])
    (hspans : ∀ factor ∈ (v :: more).dropLast, factor.IsOpenSpan)
    (he : Expr.juxtaposed? (v :: more) = some e) : e.isLeftOver = true := by
  obtain ⟨second, more, rfl⟩ := List.exists_cons_of_ne_nil hne
  cases he
  simpa [Expr.isLeftOver, Expr.apply, Expr.headName?, Expr.symbolName?, Expr.children,
    Expr.IsOpenSpan] using hspans

/-! ## Within parentheses -/

/-- Where a reader is after the opening token of its input. -/
def State.afterOpening (opening : Token) (inside : List Token) : State :=
  ((ofTokens (opening :: inside)).within opening.loc).before inside

section Opening

variable (hopening : opening.kind = .leftParen) (endFree : ∀ t ∈ inside, t.kind ≠ .endOfInput)
include hopening endFree

theorem endFree_opening : ∀ t ∈ opening :: inside, t.kind ≠ .endOfInput := by
  rw [List.forall_mem_cons]
  exact ⟨by simp [hopening], endFree⟩

/-- An expression up to a closing parenthesis that ends the input. -/
theorem eventually_readTokens_grouped (hclosing : closing.kind = .rightParen)
    (h : ∀ᶠ room in atTop, Forgetful.expression .standard room 0 (.afterOpening opening inside) =
      .ok e ((State.afterOpening opening inside).before [closing])) :
    ∀ᶠ limit in atTop, readTokens ⟨.standard, limit⟩ (opening :: inside) =
      .ok (some (grouped (opening.loc.union closing.loc) e)) := by
  -- the group is all there is, so nothing extends it
  have hchain : ∀ᶠ room in atTop, chain .standard (Forgetful.expression .standard room) 0
      ((State.ofTokens (opening :: inside)).before (opening :: inside)) =
        iterate (trailing .standard (Forgetful.expression .standard room) 0)
          (grouped (opening.loc.union closing.loc) e)
          ((State.ofTokens (opening :: inside)).before []) := by
    filter_upwards [h] with room h
    exact chain_of_leading (leading_group hopening rfl h hclosing)
  have hread := eventually_expression_of_chain hchain (stops_endOfInput 0)
  have hending : ∀ t ∈ ([] : List Token).head?, t.kind = .endOfInput := fun _ h => nomatch h
  have hlimit := eventually_readTokens (endFree_opening hopening endFree) (List.cons_ne_nil _ _)
    hending (by rwa [List.append_nil])
  rwa [List.append_nil] at hlimit

/-- An expression that ends before any other token of the input. -/
theorem eventually_readTokens_missing (hkind : t.current.kind ≠ .rightParen)
    (hend : t.current.kind ≠ .endOfInput)
    (h : ∀ᶠ room in atTop, Forgetful.expression .standard room 0 (.afterOpening opening inside) =
      .ok v t) :
    ∀ᶠ limit in atTop, readTokens ⟨.standard, limit⟩ (opening :: inside) =
      .error (.unmatchedDelimiter t.current.loc .rightParen) := by
  have hrest := rest_ofTokens (endFree_opening hopening endFree)
  have hmissing : t.missing .rightParen = .unmatchedDelimiter t.current.loc .rightParen := by
    rw [State.missing, State.faultAt, if_neg hend]
  have hclose : closeBracket .rightParen t =
      .error (.unmatchedDelimiter t.current.loc .rightParen) t := by
    rw [closeBracket_eq, if_neg hkind, hmissing]
  -- the error is that of the group, which is the first thing to be read
  have hexpression : ∀ᶠ room in atTop, Forgetful.expression .standard room 0
      (.ofTokens (opening :: inside)) =
        .error (.unmatchedDelimiter t.current.loc .rightParen) t := by
    refine eventually_expression ?_
    -- the group opens its bracket, reads what is inside, and fails to close
    filter_upwards [h] with room h
    rw [← State.before_rest (s := .ofTokens (opening :: inside)), hrest]
    refine bind_error ?_
    unfold leading
    rw [peek_bind, State.current_before_cons, hopening]
    show group _ _ = _
    unfold group
    rw [openBracket_bind]
    exact (bind_ok _ h).trans (bind_error hclose)
  have hcurrent : (State.ofTokens (opening :: inside)).current.kind ≠ .endOfInput := by
    rw [State.current, hrest]
    simp [hopening]
  filter_upwards [hexpression] with limit hexpression
  refine readTokens_eq_forgetful ?_ fun e he => ?_
  · unfold Forgetful.readTokens Forgetful.program
    rw [programTurns_error hcurrent hexpression]
  · cases he
    rfl

end Opening

/-- With enough room for nesting, an accepted input in parentheses is accepted as the same tree,
    marked as standing in brackets of its own; or else the tree is a product of expressions left
    over side by side, and the closing parenthesis is missed after the first of them. -/
theorem readTokens_parenthesized (endFree : ∀ t ∈ tokens, t.kind ≠ .endOfInput)
    (h : readTokens ⟨.standard, limit⟩ tokens = .ok (some e))
    (hopening : opening.kind = .leftParen) (hclosing : closing.kind = .rightParen) :
    (∀ᶠ limit' in atTop, readTokens ⟨.standard, limit'⟩ (opening :: (tokens ++ [closing])) =
      .ok (some (grouped (opening.loc.union closing.loc) e))) ∨
    (e.isLeftOver = true ∧ ∃ first s, expression .standard limit 0 (.ofTokens tokens) =
        .ok first s ∧ s.rest ≠ [] ∧
      ∀ᶠ limit' in atTop, readTokens ⟨.standard, limit'⟩ (opening :: (tokens ++ [closing])) =
        .error (.unmatchedDelimiter s.current.loc .rightParen)) := by
  have endFree' : ∀ t ∈ tokens ++ [closing], t.kind ≠ .endOfInput := by
    simpa [or_imp, forall_and, hclosing] using endFree
  have hne : (State.ofTokens tokens).rest ≠ [] := by
    rw [rest_ofTokens endFree]
    rintro rfl
    rw [readTokens_nil] at h
    cases h
  have ends : closing.kind ∈ elementEnds := by
    rw [hclosing]
    decide
  -- the first expression is read within the parentheses as it is by itself
  obtain ⟨s', -, hs, -, -⟩ := exists_sync_of_readTokens h
  have hsync : Sync (.element tokens closing [] _ endFree ends) .empty .zero (.ofTokens tokens)
      (.afterOpening opening (tokens ++ [closing])) := sync_element endFree ends h rfl
  obtain ⟨first, s, t, hfirst, hs, hsync, -, -, ht⟩ :=
    exists_expression_of_program rfl hsync hne hs
  obtain ⟨more, he, hspans, hmore⟩ := exists_factors_of_program hfirst hs
  by_cases hnil : s.rest = []
  · -- it takes up all tokens, and ends before the closing parenthesis
    left
    obtain rfl := hmore.mpr (current_of_nil hnil)
    obtain rfl : e = first := Option.some.inj he
    rw [hsync.eq_finish hnil] at ht
    exact eventually_readTokens_grouped hopening endFree' hclosing ht
  · -- another expression starts where the closing parenthesis is expected
    right
    have hend : s.current.kind ≠ .endOfInput :=
      fun hend => hnil (eq_nil_of_current hsync.suffix hend)
    obtain ⟨v, s₁, hv, -, -⟩ := exists_again_of_program hend hs
    have hcurrent : t.current = s.current := hsync.toSited.current_eq hnil
    have hkind : t.current.kind ≠ .rightParen := by
      intro hkind
      have hstarts := not_endsOperand_of_expression hv
      rw [← hcurrent, hkind] at hstarts
      cases hstarts
    refine ⟨isLeftOver_of_juxtaposed? (mt hmore.mp hend) hspans he.symm, first, s, hfirst, hnil, ?_⟩
    rw [← hcurrent] at hend ⊢
    exact eventually_readTokens_missing hopening endFree' hkind hend ht

/-- The tokens of `a;;b;;c;`, a span and what ends a statement. -/
def spanStatement : List Token :=
  [⟨.symbol, "a", .zero⟩, ⟨.span, ";;", .zero⟩, ⟨.symbol, "b", .zero⟩, ⟨.span, ";;", .zero⟩,
    ⟨.symbol, "c", .zero⟩, ⟨.semicolon, ";", .zero⟩]

/-- The tree of `a;;b;;c;`. -/
def spanStatementTree : Expr :=
  let leaf (name : String) : Expr := .symbol name .zero
  let span := Expr.node (leaf "Span") [leaf "a", leaf "b", leaf "c"] false .zero
  .node (leaf "CompoundExpression") [span, leaf "Null"] false .zero

/-- The tokens in parentheses. -/
def inParentheses (tokens : List Token) : List Token :=
  ⟨.leftParen, "(", .zero⟩ :: (tokens ++ [⟨.rightParen, ")", .zero⟩])

theorem readTokens_parenthesized_spanStatement :
    (∀ t ∈ spanStatement, t.kind ≠ .endOfInput) ∧
      readTokens ⟨.standard, 128⟩ spanStatement = .ok (some spanStatementTree) ∧
      ∀ᶠ limit in atTop, readTokens ⟨.standard, limit⟩ (inParentheses spanStatement) =
        .ok (some (grouped (Location.zero.union .zero) spanStatementTree)) := by
  have endFree : ∀ t ∈ spanStatement, t.kind ≠ .endOfInput := by
    decide
  have hread : readTokens ⟨.standard, 128⟩ spanStatement = .ok (some spanStatementTree) := by
    decide +kernel
  have hsingle : spanStatementTree.isLeftOver ≠ true := by
    decide
  have hopening : (⟨.leftParen, "(", .zero⟩ : Token).kind = .leftParen := rfl
  have hclosing : (⟨.rightParen, ")", .zero⟩ : Token).kind = .rightParen := rfl
  exact ⟨endFree, hread, (readTokens_parenthesized endFree hread hopening hclosing).resolve_right
    fun hleft => hsingle hleft.1⟩

/-- The tokens of `a;;b;;c;;d`, which are two spans side by side. -/
def adjacentSpans : List Token :=
  [⟨.symbol, "a", .zero⟩, ⟨.span, ";;", .zero⟩, ⟨.symbol, "b", .zero⟩, ⟨.span, ";;", .zero⟩,
    ⟨.symbol, "c", .zero⟩, ⟨.span, ";;", .zero⟩, ⟨.symbol, "d", .zero⟩]

/-- The tree of `a;;b;;c;;d`. -/
def adjacentSpansTree : Expr :=
  let leaf (name : String) : Expr := .symbol name .zero
  let span (children : List Expr) : Expr := .node (leaf "Span") children false .zero
  .node (leaf "Times") [span [leaf "a", leaf "b", leaf "c"], span [.integer 1 .zero, leaf "d"]]
    false .zero

/-- Two spans side by side are accepted, but not in parentheses, whatever the room. -/
theorem not_accepted_parenthesizedSpans :
    readTokens {} adjacentSpans = .ok (some adjacentSpansTree) ∧
      ∀ limit e?, readTokens ⟨.standard, limit⟩ (inParentheses adjacentSpans) ≠ .ok e? := by
  have herror : readTokens ⟨.standard, 128⟩ (inParentheses adjacentSpans) =
      .error (.unmatchedDelimiter .zero .rightParen) := by
    decide +kernel
  refine ⟨by decide +kernel, fun limit e? hok => ?_⟩
  -- no room makes another answer of the one that is known
  have hsame : readTokens ⟨.standard, limit⟩ (inParentheses adjacentSpans) =
      readTokens ⟨.standard, 128⟩ (inParentheses adjacentSpans) := by
    apply run_unique
    · intro loc heq
      cases hok.symm.trans heq
    · intro loc heq
      cases herror.symm.trans heq
  cases hok.symm.trans (hsame.trans herror)

end Symbolic.Reader
