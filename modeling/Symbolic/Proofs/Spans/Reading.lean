import Symbolic.Proofs.Lockstep.Elements
import Symbolic.Proofs.Spans.Grammar

/-!
# How spans are read

Between marks stand symbols and numbers, each of which may be missing. The end of a span is looked
for only where no mark comes next; its step is looked for after any second mark, also where a third
one comes next, which then starts a span of its own.

## Key results

- `exists_spanFrom_ok`: one span, from its first mark on
- `exists_aligned`: all spans of a chain, one after the other
- `exists_product`: the one tree that they make up
-/

namespace Symbolic.Spans

open Reader Parse Filter

variable {s s₁ s₂ : State} {room : Nat} {first : Option Operand} {link second : Link}
  {links rest : List Link} {tail : List Token} {start : Expr} {op : Operator} {p : Precedence}

/-! ## What a chain can stand before -/

/-- The kinds of token that a chain of spans can stand before. -/
def chainEnds : List TokenKind :=
  .endOfInput :: elementEnds

/-- A mark or the end of the chain is next. -/
def AtEdge (s : State) : Prop :=
  s.current.kind = .span ∨ s.current.kind ∈ chainEnds

/-- What ends a chain stops every expression. -/
theorem stops_of_mem_chainEnds {kind : TokenKind} (h : kind ∈ chainEnds) (p : Precedence) :
    OperatorTable.standard.Stops p kind := by
  obtain ⟨-, htrailing, -, hends, -⟩ := leading_of_end h
  refine ⟨?_, ?_⟩
  · rintro rfl
    cases htrailing
  · rw [OperatorTable.grip?, htrailing]
    simp [hends]

/-- The parts of a span bind more tightly than spans do. -/
theorem AtEdge.stops (h : AtEdge s) : OperatorTable.standard.Stops 306 s.current.kind := by
  rcases h with hspan | hends
  · rw [hspan]
    decide
  · exact stops_of_mem_chainEnds hends 306

/-- No mark of a span ends a chain of them. -/
theorem ne_span_of_mem_chainEnds {kind : TokenKind} (h : kind ∈ chainEnds) : kind ≠ .span := by
  rintro rfl
  revert h
  decide

/-- No operand starts where a chain ends. -/
theorem leading_of_chainEnds {expr : Precedence → Parse Expr} (h : s.current.kind ∈ chainEnds) :
    leading .standard expr s = .error s.unexpected s := by
  rcases List.mem_cons.mp h with hend | hends
  · unfold leading
    rw [peek_bind, hend]
    rfl
  · exact leading_of_elementEnds hends

/-- No part of a span is found where the chain ends. -/
theorem barred_of_chainEnds (room : Nat) (h : s.current.kind ∈ chainEnds) :
    Barred (Forgetful.expression .standard (room + 1)) s :=
  fun _ => ⟨s.unexpected, isRecoverable_unexpected s, bind_error (leading_of_chainEnds h)⟩

/-- What comes after an operand: the marks that are left, or the end of the chain. -/
theorem atEdge_links (links : List Link) (hends : (s.before tail).current.kind ∈ chainEnds) :
    AtEdge (s.before (linkTokens links ++ tail)) := by
  cases links with
  | nil => exact .inr hends
  | cons link links => exact .inl link.isMark

/-! ## The parts of a span -/

/-- An operand is an atom. -/
theorem Operand.isAtom (operand : Operand) : operand.token.kind.isAtom = true := by
  rcases operand.plain with h | h <;> rw [h] <;> rfl

/-- An operand is read as what it stands for where it has to be a part of a span. -/
theorem Operand.expression_eq (operand : Operand) (hedge : AtEdge (s.before tail)) :
    Forgetful.expression .standard (room + 1) 306 (s.before (operand.token :: tail)) =
      .ok operand.tree (s.before tail) :=
  chain_ok (leading_standard_atom operand.isAtom operand.atom) (iterate_of_stops hedge.stops)

/-- An attempt succeeds as the step does. -/
theorem attempt_eq_some {α : Type} {m : Parse α} {a : α} (h : m s = .ok a s₁) :
    m.attempt s = .ok (some a) s₁ := by
  unfold Parse.attempt
  rw [h]

/-- An attempt that does not get beyond a mark goes back before it. -/
theorem attempt_advance_of_barred (hkind : (s.before tail).current.kind ∈ chainEnds)
    (mark : Token) :
    attempt (advance >>= fun _ => Forgetful.expression .standard (room + 1) p)
      (s.before (mark :: tail)) = .ok none (s.before (mark :: tail)) := by
  obtain ⟨e, he, herror⟩ := barred_of_chainEnds room hkind p
  unfold Parse.attempt
  rw [advance_bind, herror]
  simp only [he, if_true]
  rw [show (s.before tail).rewind (s.before (mark :: tail)).mark = s.before (mark :: tail) by
    simp [State.rewind, State.mark, State.before]]

/-- The end of a span, which is missing before another mark and at the end of the chain. -/
theorem exists_spanEnd (room : Nat) (link : Link) (hop : op.precedence = 305)
    (hedge : AtEdge (s.before tail)) :
    ∃ stop : Expr, stop.eraseLocations = link.stop ∧
      spanEnd (Forgetful.expression .standard (room + 1)) op link.mark.loc
        (s.before (link.operand.toList.map Operand.token ++ tail)) =
          .ok stop (s.before tail) := by
  have hnext : op.precedence.next = 306 := by rw [hop]; rfl
  unfold spanEnd Link.stop
  cases link.operand with
  | some operand =>
    have hkind : operand.token.kind ≠ .span := by
      rcases operand.plain with h | h <;> simp [h]
    refine ⟨operand.tree, rfl, ?_⟩
    show (peek >>= _) (s.before (operand.token :: tail)) = _
    rw [peek_bind, State.current_before_cons, if_neg hkind, hnext,
      bind_ok _ (attempt_eq_some (operand.expression_eq hedge))]
    rfl
  | none =>
    refine ⟨.symbol "All" link.mark.loc, rfl, ?_⟩
    show (peek >>= _) (s.before tail) = _
    rw [peek_bind]
    rcases hedge with hspan | hends
    · -- a second mark comes at once, and the end is left out without an attempt
      rw [if_pos hspan]
      rfl
    · -- the attempt fails at the end of the chain, and the end is left out
      rw [if_neg (ne_span_of_mem_chainEnds hends),
        bind_ok _ (attempt_of_barred (barred_of_chainEnds room hends) _)]
      rfl

/-- A span is made of its start, its end, and its step if there is one. -/
theorem exists_spanFrom_ok {expr : Precedence → Parse Expr} (start : Expr) {stop : Expr}
    {step? : Option Expr} {mark : Token} (hop : op.head = "Span")
    (hfinal : ((s.before tail).current.kind == .endOfInput && s.brackets.isEmpty) = false)
    (hstop : spanEnd expr op mark.loc (s.before tail) = .ok stop s₁)
    (hstep : spanStep? expr op s₁ = .ok step? s₂) :
    ∃ e : Expr, e.isOpenNode "Span" = true ∧
      e.eraseLocations = spanOf (start.eraseLocations :: stop.eraseLocations ::
        step?.toList.map Expr.eraseLocations) ∧
      spanFrom .standard expr start op (s.before (mark :: tail)) = .ok e s₂ := by
  have hfinal : ((s.before tail).current.kind == .endOfInput && (s.before tail).brackets.isEmpty) =
      false := hfinal
  unfold spanFrom
  rw [advance_bind, atFinalEnd_bind, hfinal, hop]
  simp only [Bool.false_eq_true, if_false]
  rw [bind_ok _ hstop, bind_ok _ hstep]
  -- `Span` is not flat, so its parts stay as they are, with a step or without
  have hflat : OperatorTable.standard.isFlat "Span" = false := by decide
  cases step? with
  | none => exact ⟨_, rfl, eraseLocations_make hflat _ _, rfl⟩
  | some step => exact ⟨_, rfl, eraseLocations_make hflat _ _, rfl⟩

/-! ## One span -/

/-- The operator that starts a span without a start. -/
def leadingOp : Operator :=
  .prefixed .span "Span" 305

/-- The operator that makes an operand the start of a span. -/
def trailingOp : Operator :=
  .ternary .span "Span" 305

/-- A mark that leads an expression starts a span from one. -/
theorem leading_eq_spanFrom {expr : Precedence → Parse Expr} {mark : Token}
    (hmark : mark.kind = .span) :
    leading .standard expr (s.before (mark :: tail)) =
      spanFrom .standard expr (.integer 1 (.empty mark.loc.start)) leadingOp
        (s.before (mark :: tail)) := by
  have hfound : OperatorTable.standard.lookup? .span .prefixed = some leadingOp := rfl
  rw [leading_prefixed hmark hfound]
  rfl

/-- An open span is extended neither by another mark nor at the end of the chain. -/
theorem trailing_of_isOpenNode {expr : Precedence → Parse Expr} {e : Expr}
    (hopen : e.isOpenNode "Span" = true) (hedge : AtEdge s) :
    trailing .standard expr p e s = .ok (.done e) s := by
  rcases hedge with hspan | hends
  · have hfound : OperatorTable.standard.trailing? .span = some trailingOp := rfl
    unfold trailing
    rw [peek_bind, hspan]
    simp only [hfound, reduceCtorEq, if_false]
    split
    · rfl
    · show trailingSpan .standard expr e trailingOp s = _
      -- a span that is open is not extended by another mark
      have hopen : e.isOpenNode trailingOp.head = true := hopen
      unfold trailingSpan
      rw [if_pos hopen]
      rfl
  · exact trailing_of_stops (stops_of_mem_chainEnds hends p)

/-- What reading one span from its first mark on comes to: the first of the spans that the links
    stand for, and the links that are left for the others. -/
structure SpanRead (room : Nat) (s : State) (tail : List Token) (start : Expr) (op : Operator)
    (links : List Link) (e : Expr) (remaining : List Link) : Prop where
  opened : e.isOpenNode "Span" = true
  spans : nestedSpans start.eraseLocations links = e.eraseLocations :: nestedSpans one remaining
  suffix : remaining <:+ links.tail
  shallower : nesting remaining ≤ nesting links
  read : spanFrom .standard (Forgetful.expression .standard room) start op
    (s.before (linkTokens links ++ tail)) = .ok e (s.before (linkTokens remaining ++ tail))

/-- What comes after a span's end and the marks and operands of its step. -/
structure StepRead (room : Nat) (s : State) (tail : List Token) (op : Operator) (start : Expr)
    (link : Link) (links : List Link) (step? : Option Expr) (remaining : List Link) : Prop where
  spans : nestedSpans start (link :: links) =
    spanOf (start :: link.stop :: step?.toList.map Expr.eraseLocations) ::
      nestedSpans one remaining
  suffix : remaining <:+ links
  shallower : nesting remaining ≤ nesting (link :: links)
  read : spanStep? (Forgetful.expression .standard room) op
    (s.before (linkTokens links ++ tail)) = .ok step? (s.before (linkTokens remaining ++ tail))

/-- A link is a mark with an operand behind it, if it has one. -/
theorem linkTokens_cons (link : Link) (links : List Link) (tail : List Token) :
    linkTokens (link :: links) ++ tail =
      link.mark :: (link.operand.toList.map Operand.token ++ (linkTokens links ++ tail)) := by
  simp [linkTokens, Link.tokens]

/-- A span that starts with a mark starts from one. -/
theorem SpanRead.spans_of_mark {e : Expr} {remaining : List Link}
    (h : SpanRead room s tail (.integer 1 (.empty link.mark.loc.start)) leadingOp (link :: links) e
      remaining) :
    nestedSpans one (link :: links) = e.eraseLocations :: nestedSpans one remaining :=
  h.spans

/-- A span that a mark starts is a part of the span around it. -/
theorem SpanRead.expression_eq {e : Expr} {remaining : List Link}
    (h : SpanRead room s tail (.integer 1 (.empty link.mark.loc.start)) leadingOp (link :: links) e
      remaining) (hends : (s.before tail).current.kind ∈ chainEnds) (p : Precedence) :
    Forgetful.expression .standard (room + 1) p (s.before (linkTokens (link :: links) ++ tail)) =
      .ok e (s.before (linkTokens remaining ++ tail)) := by
  have hread := h.read
  rw [linkTokens_cons] at hread ⊢
  exact chain_ok ((leading_eq_spanFrom link.isMark).trans hread)
    (iterate_done (trailing_of_isOpenNode h.opened (atEdge_links remaining hends)))

/-- Before another mark, a span tries that mark and an expression as its step. -/
theorem spanStep?_links (second : Link) (links : List Link) (hop : op.precedence = 305) :
    spanStep? (Forgetful.expression .standard (room + 1)) op
        (s.before (linkTokens (second :: links) ++ tail)) =
      attempt (advance >>= fun _ => Forgetful.expression .standard (room + 1) 306)
        (s.before (linkTokens (second :: links) ++ tail)) := by
  have hnext : op.precedence.next = 306 := by rw [hop]; rfl
  rw [linkTokens_cons]
  unfold spanStep?
  rw [peek_bind, State.current_before_cons, if_pos second.isMark, hnext]

/-- A mark right behind a mark starts a span within a span. -/
theorem nesting_of_operand_eq_none {second third : Link} {more : List Link} (link : Link)
    (hoperand : second.operand = none) :
    nesting (link :: second :: third :: more) = nesting (third :: more) + 1 := by
  rw [nesting, hoperand]
  rfl

/-- Two marks with nothing between them: the second of them starts a span, and this is the step. -/
theorem stepRead_of_spanRead {second third : Link} {more remaining : List Link} {e : Expr}
    (start : Expr) (link : Link) (hop : op.precedence = 305)
    (hends : (s.before tail).current.kind ∈ chainEnds) (hoperand : second.operand = none)
    (h : SpanRead room s tail (.integer 1 (.empty third.mark.loc.start)) leadingOp (third :: more) e
      remaining) :
    StepRead (room + 1) s tail op start link (second :: third :: more) (some e) remaining where
  spans := by
    have hspans := h.spans_of_mark
    simp only [nestedSpans, hoperand, hspans]
    rfl
  suffix := by
    have hsuffix : remaining <:+ more := h.suffix
    exact hsuffix.trans ⟨[second, third], rfl⟩
  shallower := by
    have hshallower := h.shallower
    -- the mark without an end costs the level that its step is read at
    rw [nesting_of_operand_eq_none link hoperand]
    omega
  read := by
    rw [spanStep?_links second _ hop, linkTokens_cons, hoperand]
    exact attempt_eq_some (h.expression_eq hends 306)

/-- The step of a span is the next operand, or the span that a third mark starts. -/
theorem exists_stepRead (start : Expr) (link : Link) (links : List Link) (hop : op.precedence = 305)
    (hends : (s.before tail).current.kind ∈ chainEnds)
    (hroom : nesting (link :: links) < room + 1)
    (hnested : ∀ third more, links.length = (third :: more).length + 1 →
      nesting (third :: more) < room →
      ∃ e remaining, SpanRead room s tail (.integer 1 (.empty third.mark.loc.start)) leadingOp
        (third :: more) e remaining) :
    ∃ step? remaining, StepRead (room + 1) s tail op start link links step? remaining := by
  obtain _ | ⟨second, rest⟩ := links
  · -- the chain ends here
    refine ⟨none, [], rfl, List.suffix_refl _, Nat.zero_le _, ?_⟩
    show spanStep? _ op (s.before tail) = .ok none (s.before tail)
    unfold spanStep?
    rw [peek_bind, if_neg (ne_span_of_mem_chainEnds hends)]
    rfl
  cases hoperand : second.operand with
  | some step =>
    refine ⟨some step.tree, rest, ?_, List.suffix_cons _ _, ?_, ?_⟩
    · simp only [nestedSpans, hoperand]
      rfl
    · rw [nesting, hoperand]
      exact Nat.le_refl _
    · rw [spanStep?_links second rest hop, linkTokens_cons, hoperand]
      exact attempt_eq_some (step.expression_eq (atEdge_links rest hends))
  | none =>
    obtain _ | ⟨third, more⟩ := rest
    · -- the second mark starts the next span, as nothing comes after it
      refine ⟨none, [second], ?_, List.suffix_refl _, ?_, ?_⟩
      · simp only [nestedSpans, hoperand]
        rfl
      · exact Nat.zero_le _
      · rw [spanStep?_links second [] hop, linkTokens_cons, hoperand]
        exact attempt_advance_of_barred hends second.mark
    · rw [nesting_of_operand_eq_none link hoperand] at hroom
      obtain ⟨e, remaining, hread⟩ := hnested third more rfl (by omega)
      exact ⟨some e, remaining, stepRead_of_spanRead start link hop hends hoperand hread⟩

/-- A span without an end at the very end of the input looks for nothing more. -/
theorem exists_spanFrom_of_final (expr : Precedence → Parse Expr) (start : Expr) (mark : Token)
    (hop : op.head = "Span")
    (hfinal : ((s.before tail).current.kind == .endOfInput && s.brackets.isEmpty) = true) :
    ∃ e : Expr, e.isOpenNode "Span" = true ∧
      e.eraseLocations = spanOf [start.eraseLocations, all] ∧
      spanFrom .standard expr start op (s.before (mark :: tail)) = .ok e (s.before tail) := by
  have hfinal : ((s.before tail).current.kind == .endOfInput && (s.before tail).brackets.isEmpty) =
      true := hfinal
  unfold spanFrom
  rw [advance_bind, atFinalEnd_bind, hfinal, hop, if_pos rfl]
  exact ⟨_, rfl, eraseLocations_make (by decide) _ _, rfl⟩

/-- The input goes on where there is still an operand or a mark. -/
theorem kind_ne_endOfInput_of_links (s : State) (tail : List Token)
    (h : link.operand.toList.map Operand.token ++ linkTokens links ≠ []) :
    (s.before (link.operand.toList.map Operand.token ++ (linkTokens links ++ tail))).current.kind ≠
      .endOfInput := by
  cases hoperand : link.operand with
  | some operand =>
    show operand.token.kind ≠ .endOfInput
    rcases operand.plain with hkind | hkind <;> simp [hkind]
  | none =>
    obtain _ | ⟨second, rest⟩ := links
    · simp [hoperand, linkTokens] at h
    · show second.mark.kind ≠ .endOfInput
      simp [second.isMark]

/-- A mark that is the last token of all is a span by itself. -/
theorem exists_spanRead_of_final (start : Expr) (link : Link) (links : List Link)
    (hop : op.head = "Span")
    (hfinal : ((s.before (link.operand.toList.map Operand.token ++
      (linkTokens links ++ tail))).current.kind == .endOfInput && s.brackets.isEmpty) = true) :
    ∃ e remaining, SpanRead room s tail start op (link :: links) e remaining := by
  -- the input ends behind the mark: there is no end of the span and no other mark
  have hnil : link.operand.toList.map Operand.token ++ linkTokens links = [] := by
    by_contra hne
    have hkind := kind_ne_endOfInput_of_links s tail hne
    simp [hkind] at hfinal
  obtain ⟨hoperand, hlinks⟩ := List.append_eq_nil_iff.mp hnil
  have hoperand : link.operand = none := by simpa using hoperand
  obtain rfl : links = [] := by
    cases links with
    | nil => rfl
    | cons second rest => cases hlinks
  obtain ⟨e, hopen, he, hread⟩ := exists_spanFrom_of_final
    (Forgetful.expression .standard room) start link.mark hop hfinal
  refine ⟨e, [], hopen, ?_, List.suffix_refl _, Nat.le_refl _, ?_⟩
  · have hstop : link.stop = all := by simp [Link.stop, hoperand]
    show [spanOf [_, link.stop]] = _
    rw [he, hstop]
    rfl
  · rw [linkTokens_cons, hread, hoperand]
    rfl

/-- One span is read from its first mark on, with more room than spans are nested deep. -/
theorem exists_spanRead (op : Operator) (hhead : op.head = "Span") (hop : op.precedence = 305)
    (hends : (s.before tail).current.kind ∈ chainEnds) (link : Link) (links : List Link)
    (hroom : nesting (link :: links) < room) (start : Expr) :
    ∃ e remaining, SpanRead room s tail start op (link :: links) e remaining := by
  -- induction on the number of links, which is less for a span that is a step
  induction hn : links.length using Nat.strongRecOn generalizing room start op link links with
  | _ n ih =>
    subst hn
    obtain ⟨room, rfl⟩ : ∃ r, room = r + 1 := ⟨room - 1, by omega⟩
    by_cases hfinal : ((s.before (link.operand.toList.map Operand.token ++
        (linkTokens links ++ tail))).current.kind == .endOfInput && s.brackets.isEmpty) = true
    · exact exists_spanRead_of_final start link links hhead hfinal
    · obtain ⟨stop, hstop, hspanEnd⟩ := exists_spanEnd room link hop
        (atEdge_links links hends)
      have hnested : ∀ third more, links.length = (third :: more).length + 1 →
          nesting (third :: more) < room →
          ∃ e remaining, SpanRead room s tail (.integer 1 (.empty third.mark.loc.start)) leadingOp
            (third :: more) e remaining := by
        intro third more hlength hdeep
        have hless : more.length < links.length := by
          rw [hlength, List.length_cons]
          omega
        exact ih more.length hless leadingOp rfl rfl third more hdeep _ rfl
      obtain ⟨step?, remaining, hstep⟩ :=
        exists_stepRead start.eraseLocations link links hop hends hroom hnested
      obtain ⟨e, hopen, he, hread⟩ := exists_spanFrom_ok start hhead
        (Bool.not_eq_true _ ▸ hfinal) hspanEnd hstep.read
      refine ⟨e, remaining, hopen, ?_, hstep.suffix, hstep.shallower, ?_⟩
      · rw [hstep.spans, he, hstop]
      · rw [linkTokens_cons, hread]

/-! ## All spans of a chain -/

theorem length_linkTokens_lt (link : Link) (tail : List Token) {remaining : List Link}
    (h : remaining <:+ links) :
    (linkTokens remaining ++ tail).length < (linkTokens (link :: links) ++ tail).length := by
  obtain ⟨passed, rfl⟩ := h
  simp only [linkTokens, List.flatMap_cons, List.flatMap_append, Link.tokens, List.length_append,
    List.length_cons]
  omega

/-- Expressions are read one after the other, each from a token on that can start one. -/
inductive Aligned (expr : Precedence → Parse Expr) : State → List Expr → State → Prop where
  | done (s : State) : Aligned expr s [] s
  | next {s s₁ s' : State} {e : Expr} {es : List Expr}
      (starts : s.current.kind.endsOperand = false) (read : expr 0 s = .ok e s₁)
      (shorter : s₁.rest.length < s.rest.length) (rest : Aligned expr s₁ es s') :
      Aligned expr s (e :: es) s'

/-- What is left of a chain is read span by span. -/
theorem exists_aligned_links (hends : (s.before tail).current.kind ∈ chainEnds)
    (links : List Link) (hroom : nesting links < room) :
    ∃ es : List Expr, es.map Expr.eraseLocations = nestedSpans one links ∧
      Aligned (Forgetful.expression .standard (room + 1)) (s.before (linkTokens links ++ tail)) es
        (s.before tail) := by
  -- induction on the number of links, of which each span takes some
  induction hn : links.length using Nat.strongRecOn generalizing links with
  | _ n ih =>
    subst hn
    obtain _ | ⟨link, links⟩ := links
    · exact ⟨[], rfl, .done _⟩
    · obtain ⟨e, remaining, hread⟩ := exists_spanRead leadingOp rfl rfl hends link links
        hroom (.integer 1 (.empty link.mark.loc.start))
      have hshallower := hread.shallower
      obtain ⟨es, hes, haligned⟩ := ih _ (Nat.lt_succ_of_le hread.suffix.length_le) remaining
        (by omega) rfl
      refine ⟨e :: es, ?_, .next ?_ (hread.expression_eq hends 0) ?_ haligned⟩
      · rw [List.map_cons, hes, hread.spans_of_mark]
      · show link.mark.kind.endsOperand = false
        rw [link.isMark]
        rfl
      · exact length_linkTokens_lt link tail hread.suffix

/-- A first operand is the start of the first span. -/
theorem exists_expression_of_operand (operand : Operand) (link : Link) (links : List Link)
    (hends : (s.before tail).current.kind ∈ chainEnds) (hroom : nesting (link :: links) < room) :
    ∃ e remaining, SpanRead room s tail operand.tree trailingOp (link :: links) e remaining ∧
      Forgetful.expression .standard (room + 1) 0
        (s.before (operand.token :: (linkTokens (link :: links) ++ tail))) =
          .ok e (s.before (linkTokens remaining ++ tail)) := by
  obtain ⟨e, remaining, hread⟩ := exists_spanRead trailingOp rfl rfl hends link links hroom
    operand.tree
  refine ⟨e, remaining, hread, ?_⟩
  have hspan := hread.read
  rw [linkTokens_cons] at hspan
  have hfound : OperatorTable.standard.trailing? .span = some trailingOp := rfl
  have hopen : operand.tree.isOpenNode trailingOp.head = false := by
    rcases operand.tree_cases with ⟨name, loc, h⟩ | ⟨value, loc, h⟩ <;> rw [h] <;> rfl
  -- one turn makes the operand the start of the span, and an open span takes no other
  have hturn : trailing .standard (Forgetful.expression .standard room) 0 operand.tree
      (s.before (linkTokens (link :: links) ++ tail)) =
        .ok (.again e) (s.before (linkTokens remaining ++ tail)) := by
    rw [linkTokens_cons, trailing_extended link.isMark hfound (by decide) (by decide)]
    show trailingSpan .standard _ operand.tree trailingOp _ = _
    unfold trailingSpan
    rw [if_neg (by simp [hopen]), bind_ok _ hspan]
    rfl
  refine chain_ok (leading_standard_atom operand.isAtom operand.atom) ?_
  rw [iterate_again hturn (length_linkTokens_lt link tail hread.suffix)]
  exact iterate_done (trailing_of_isOpenNode hread.opened (atEdge_links remaining hends))

/-- A chain is read span by span. -/
theorem exists_aligned (first : Option Operand) (link : Link) (links : List Link)
    (hends : (s.before tail).current.kind ∈ chainEnds) (hroom : nesting (link :: links) < room) :
    ∃ es : List Expr, es.map Expr.eraseLocations = nestedSpans (startOf first) (link :: links) ∧
      Aligned (Forgetful.expression .standard (room + 1))
        (s.before (chainTokens first (link :: links) ++ tail)) es (s.before tail) := by
  cases first with
  | none => exact exists_aligned_links hends (link :: links) hroom
  | some operand =>
    obtain ⟨e, remaining, hspan, hread⟩ :=
      exists_expression_of_operand operand link links hends hroom
    have hshallower := hspan.shallower
    -- what the first span leaves is shallower, and is read as the remaining products
    have hroom' : nesting remaining < room := by omega
    obtain ⟨es, hes, haligned⟩ := exists_aligned_links hends remaining hroom'
    refine ⟨e :: es, ?_, .next ?_ hread ?_ haligned⟩
    · rw [List.map_cons, hes]
      exact hspan.spans.symm
    · show operand.token.kind.endsOperand = false
      rcases operand.plain with h | h <;> rw [h] <;> rfl
    · have hlt := length_linkTokens_lt link tail hspan.suffix
      exact Nat.lt_succ_of_lt hlt

/-- Spans side by side are one product. -/
theorem exists_juxtaposed {es : List Expr} (hne : es ≠ []) :
    ∃ e : Expr, Expr.juxtaposed? es = some e ∧
      e.eraseLocations = product (es.map Expr.eraseLocations) := by
  obtain _ | ⟨e, _ | ⟨e', es⟩⟩ := es
  · exact absurd rfl hne
  · exact ⟨e, rfl, rfl⟩
  · refine ⟨_, rfl, ?_⟩
    simp [Expr.apply, Expr.eraseLocations, Expr.eraseAllLocations_eq_map, product]

/-- The spans of a chain make up one tree. -/
theorem exists_product (s : State) (tail : List Token)
    (hends : (s.before tail).current.kind ∈ chainEnds) (first : Option Operand) (link : Link)
    (links : List Link) (hroom : nesting (link :: links) < room) :
    ∃ es e, Expr.juxtaposed? es = some e ∧
      e.eraseLocations = product (nestedSpans (startOf first) (link :: links)) ∧
      Aligned (Forgetful.expression .standard (room + 1))
        (s.before (chainTokens first (link :: links) ++ tail)) es (s.before tail) := by
  obtain ⟨es, hes, haligned⟩ := exists_aligned first link links hends hroom
  have hne : es ≠ [] := by
    rintro rfl
    exact List.cons_ne_nil _ _ ((nestedSpans_eq_nil _ _).mp hes.symm)
  obtain ⟨e, he, hproduct⟩ := exists_juxtaposed hne
  exact ⟨es, e, he, by rw [hproduct, hes], haligned⟩

end Symbolic.Spans
