import Symbolic.Proofs.Trees.Built

/-!
# What is read is built

Whatever a reader returns is built from the atoms that it has passed over, each of them used once.
This is so for every table that gives no meaning to atoms as operators.

## Key results

- `yields_leading`, `yields_trailing`: the forms that start and that extend an expression
- `yields_expression`: an expression
- `element_of_readTokens`: a whole input
-/

namespace Symbolic.Reader

open Parse

variable {table : OperatorTable} {beside : Expr → Prop} {expr : Precedence → Parse Expr}
  {s : State} {atoms : List Token} {lhs : Expr} {op : Operator}

/-- The step reads a tree that is built from the atoms it passes over. -/
abbrev YieldsBuilt (table : OperatorTable) (beside : Expr → Prop) (s : State) (m : Parse Expr) :
    Prop :=
  Yields s m fun e atoms _ => Built table beside e atoms

/-- The step extends or ends a tree that is built from the given atoms. -/
abbrev YieldsTurn (table : OperatorTable) (beside : Expr → Prop) (atoms : List Token) (s : State)
    (m : Parse (Turn Expr Expr)) : Prop :=
  Yields s m fun outcome more _ =>
    outcome.Holds (Built table beside · (atoms ++ more)) (Built table beside · (atoms ++ more))

/-- The step reads a tree that is built from the given atoms and those it passes over. -/
abbrev YieldsFrom (table : OperatorTable) (beside : Expr → Prop) (atoms : List Token) (s : State)
    (m : Parse Expr) : Prop :=
  Yields s m fun e more _ => Built table beside e (atoms ++ more)

/-- A tree that is built is one to go on extending. -/
theorem YieldsFrom.again {m : Parse Expr} (h : YieldsFrom table beside atoms s m) :
    YieldsTurn table beside atoms s (.again <$> m) :=
  h.map

/-- An operand that nothing extends is built from what it was built from. -/
theorem yieldsTurn_done (h : Built table beside lhs atoms) :
    YieldsTurn table beside atoms s (pure (.done lhs)) :=
  .pure (by simpa [Turn.Holds] using h)

section Rules

variable (h : ∀ p s, YieldsBuilt table beside s (expr p))
include h

/-! ## Elements between commas -/

section Elements

variable (hbeside : ∀ {s s' s'' : State} {e e' : Expr}, expr 0 s = .ok e s' →
  expr 0 s' = .ok e' s'' → beside e)
include hbeside

/-- Trees side by side, the last of which has just been read. -/
def Factors (table : OperatorTable) (beside : Expr → Prop) (expr : Precedence → Parse Expr)
    (factors : List Expr) (atoms : List Token) (s : State) : Prop :=
  BuiltAll table beside factors atoms ∧ ∃ init last s₀, factors = init ++ [last] ∧
    (∀ factor ∈ init, beside factor) ∧ expr 0 s₀ = .ok last s

omit h hbeside in
/-- There is at least one factor, so the product of all of them is there, and is built from their
    atoms. -/
theorem Factors.exists_element {factors : List Expr}
    (hfactors : Factors table beside expr factors atoms s) :
    ∃ e, Expr.juxtaposed? factors = some e ∧ Element table beside e atoms := by
  obtain ⟨hbuilt, init, last, -, rfl, hinit, -⟩ := hfactors
  obtain ⟨e, he⟩ : ∃ e, Expr.juxtaposed? (init ++ [last]) = some e := by
    cases init with
    | nil => exact ⟨last, rfl⟩
    | cons first init => cases init <;> exact ⟨_, rfl⟩
  exact ⟨e, he, .product hbuilt (by simpa using hinit) he⟩

/-- One more tree beside those that are there. -/
theorem yields_factor {factors : List Expr}
    (hfactors : Factors table beside expr factors atoms s) :
    Yields s (expr 0) fun e more s' =>
      Factors table beside expr (factors ++ [e]) (atoms ++ more) s' := by
  refine ⟨fun {e s'} he => ?_⟩
  obtain ⟨more, hpasses, hbuilt⟩ := (h 0 s).passes he
  obtain ⟨hall, init, last, s₀, rfl, hinit, hlast⟩ := hfactors
  refine ⟨more, hpasses, hall.append hbuilt.builtAll, init ++ [last], e, s, rfl, ?_, he⟩
  intro factor hfactor
  rcases List.mem_append.mp hfactor with hmem | hmem
  · exact hinit factor hmem
  · obtain rfl := List.mem_singleton.mp hmem
    exact hbeside hlast he

omit hbeside in
/-- The first expression of an element is the only factor so far. -/
theorem yields_firstFactor :
    Yields s (expr 0) fun e atoms s' => Factors table beside expr [e] atoms s' := by
  refine ⟨fun {e s'} he => ?_⟩
  obtain ⟨atoms, hpasses, hbuilt⟩ := (h 0 s).passes he
  exact ⟨atoms, hpasses, hbuilt.builtAll, [], e, s, rfl, by simp, he⟩

/-- The tree of one more expression in an element is built from the atoms that were passed over for
    it. -/
theorem yields_elementTurn (closer : TokenKind) {factors : List Expr}
    (hfactors : Factors table beside expr factors atoms s) :
    Yields s (elementTurn expr closer factors) fun outcome more s' =>
      outcome.Holds (fun factors => Factors table beside expr factors (atoms ++ more) s')
        fun items => Elements table beside items (atoms ++ more) := by
  unfold elementTurn
  refine .bind_peek ?_
  split
  · -- the element ends: its factors make one tree
    obtain ⟨e, he, helement⟩ := hfactors.exists_element
    refine .pure ?_
    rw [he, List.append_nil]
    exact helement.elements
  split
  · exact .unexpected
  split
  · exact .throw _
  · -- one more factor, with the atoms that it has taken
    refine (yields_factor h hbeside hfactors).bind fun e more s₁ hmore => .pure ?_
    rw [List.append_nil]
    exact hmore

/-- The tree of an element is built from the atoms that were passed over for it. -/
theorem yields_element (closer : TokenKind) :
    Yields s (element expr closer) fun items atoms _ => Elements table beside items atoms := by
  unfold element
  refine (yields_firstFactor h).bind fun e atoms s₁ hfirst => ?_
  exact .iterate (I := Factors table beside expr)
    (Q := fun items atoms _ => Elements table beside items atoms)
    (fun factors atoms s₂ hfactors => yields_elementTurn h hbeside closer hfactors) hfirst

/-- The tree of one more element is built from the atoms that were passed over for it. -/
theorem yields_sequenceTurn (closer : TokenKind) {items : List Expr}
    (hitems : Elements table beside items atoms) :
    Yields s (sequenceTurn expr closer items) fun outcome more _ =>
      outcome.Holds (fun items => Elements table beside items (atoms ++ more))
        fun items => Elements table beside items (atoms ++ more) := by
  have homitted : ∀ loc, Elements table beside (items ++ [.symbol "Null" loc]) (atoms ++ []) :=
    fun loc => hitems.append (Element.elements .omitted)
  unfold sequenceTurn
  refine .bind_peek ?_
  split
  · -- a comma where an element could stand
    rename_i hcomma
    refine .bind_advance (by rw [hcomma]; rfl) fun s₁ => .pure ?_
    exact homitted _
  split
  · refine .pure ?_
    split
    · -- nothing at all between the brackets
      rename_i hempty
      obtain rfl := List.isEmpty_iff.mp hempty
      rw [List.append_nil]
      exact hitems
    · exact homitted _
  split
  · exact .unexpected
  · refine (yields_element h hbeside closer).bind fun es more s₁ hes => .bind_peek ?_
    split
    · -- the comma behind an element is passed over, and is no atom
      rename_i hcomma
      refine .bind_advance (by rw [hcomma]; rfl) fun s₂ => .pure ?_
      rw [List.append_nil]
      exact hitems.append hes
    · refine .pure ?_
      rw [List.append_nil]
      exact hitems.append hes

/-- The tree of the elements up to a closing bracket is built from the atoms that were passed over
    for it. -/
theorem yields_sequence (closer : TokenKind) :
    Yields s (sequence expr closer) fun items atoms _ => Elements table beside items atoms := by
  have hiterate := Yields.iterate (I := fun items atoms _ => Elements table beside items atoms)
    (Q := fun items atoms _ => Elements table beside items atoms) (s := s)
    (fun items atoms s₁ hitems => yields_sequenceTurn h hbeside closer hitems) .nil
  exact hiterate

/-! ## Brackets -/

/-- The tree of a node over the elements between brackets is built from the atoms that were passed
    over for it. -/
theorem yields_bracketed {head : String} {closer : TokenKind}
    (hhead : head ∈ table.sequenceHeads) (hkind : s.current.kind.isAtom = false)
    (hcloser : closer.isAtom = false) :
    YieldsBuilt table beside s (bracketed table expr head closer) := by
  unfold bracketed
  refine .bind_openBracket hkind fun s₁ => ?_
  refine (yields_sequence h hbeside closer).bind fun items atoms s₂ hitems => ?_
  refine (Yields.closeBracket hcloser).bind fun closing more s₃ hmore => .pure ?_
  rw [hmore, List.append_nil, List.append_nil]
  exact .sequence hhead hitems

/-- The tree of a call or a part is built from the atoms that were passed over for it. -/
theorem yields_callOrPart (hfound : table.trailing? .leftBracket = some op)
    (hkind : s.current.kind.isAtom = false) (hlhs : Built table beside lhs atoms) :
    YieldsFrom table beside atoms s (callOrPart table expr lhs op) := by
  -- the head of a part is one that the table builds sequences with
  have hhead : op.head ∈ table.sequenceHeads := by
    simp [OperatorTable.sequenceHeads, hfound]
  -- the arguments of a call
  unfold callOrPart
  refine .bind_openBracket hkind fun s₁ => .bind_peek ?_
  split
  · rename_i hsecond
    -- the indices of a part stand behind a second bracket
    unfold part
    refine .bind_advance (by rw [hsecond]; rfl) fun s₂ => ?_
    refine (yields_sequence h hbeside .rightBracket).bind fun indices more s₃ hindices => ?_
    refine (Yields.expect rfl).bind fun _ empty s₄ hempty => ?_
    refine (Yields.closeBracket rfl).bind fun closing empty' s₅ hempty' => .pure ?_
    rw [hempty, hempty', List.append_nil, List.append_nil, List.append_nil]
    exact .sequence hhead (.cons hlhs.element hindices)
  · unfold call
    refine (yields_sequence h hbeside .rightBracket).bind fun args more s₂ hargs => ?_
    refine (Yields.closeBracket rfl).bind fun closing empty s₃ hempty => .pure ?_
    rw [hempty, List.append_nil, List.append_nil]
    exact .parenthesize (.apply hlhs hargs)

end Elements

/-- The tree of `(e)` is built from the atoms that were passed over for it. -/
theorem yields_group (hkind : s.current.kind.isAtom = false) :
    YieldsBuilt table beside s (group expr) := by
  unfold group
  refine .bind_openBracket hkind fun s₁ => (h 0 s₁).bind fun e atoms s₂ he => ?_
  refine (Yields.closeBracket rfl).bind fun closing empty s₃ hempty => ?_
  obtain rfl : empty = [] := hempty
  split
  · exact .pure (by simpa using Built.parenthesize (.withLoc he))
  · exact .pure (by simpa using he)

/-! ## Prefix operators -/

section Leading

variable (hop : op ∈ table.operators) (hkind : s.current.kind.isAtom = false)
include hkind

/-- The tree of `+x` is built from the atoms that were passed over for it. -/
theorem yields_plus : YieldsBuilt table beside s (plus expr op) := by
  unfold plus
  refine .bind_advance hkind fun s₁ => (h _ s₁).bind fun operand atoms s₂ hoperand => ?_
  split
  · exact .pure (by rw [List.append_nil]; exact hoperand)
  · exact .pure (by rw [List.append_nil]; exact .withLoc hoperand)

include hop

/-- The tree of `-x` is built from the atoms that were passed over for it. -/
theorem yields_minus : YieldsBuilt table beside s (minus table expr op) := by
  unfold minus
  refine .bind_advance hkind fun s₁ => (h _ s₁).bind fun operand atoms s₂ hoperand => .pure ?_
  rw [List.append_nil]
  exact .negate (OperatorTable.head_mem_heads hop) hoperand

/-- The tree of `?x` is built from the atoms that were passed over for it. -/
theorem yields_information : YieldsBuilt table beside s (information table expr op) := by
  -- the option that is put in is made of names, not of atoms of the text
  have hrule : ∀ sign flag, flag ∈ ["True", "False"] → Built table beside
      (.make table "Rule" [.symbol "LongForm" sign, .symbol flag sign] sign) [] := by
    intro sign flag hflag
    have hnames : "LongForm" ∈ ruleNames ∧ flag ∈ ruleNames := by
      simp only [List.mem_cons, List.not_mem_nil, or_false] at hflag
      rcases hflag with rfl | rfl <;> exact ⟨by decide, by decide⟩
    exact .make (List.mem_append_right _ (by decide))
      (.cons (.name hnames.1) (.cons (.name hnames.2) .nil))
  unfold information
  refine .bind_advance hkind fun s₁ => .bind_peek ?_
  refine (h _ s₁).bind fun operand atoms s₂ hoperand => ?_
  dsimp only
  split
  · -- the long form is refused, so nothing is built
    refine ⟨fun hthrow => ?_⟩
    cases hthrow
  · refine .pure ?_
    refine .make (OperatorTable.head_mem_heads hop) (.pair hoperand (hrule _ _ ?_))
    split <;> simp

/-- The tree of `!!x` is built from the atoms that were passed over for it. -/
theorem yields_doubleNegation : YieldsBuilt table beside s (doubleNegation table expr op) := by
  have hhead := OperatorTable.head_mem_heads hop
  unfold doubleNegation
  refine .bind_advance hkind fun s₁ => (h _ s₁).bind fun operand atoms s₂ hoperand => .pure ?_
  rw [List.append_nil]
  exact .make hhead (Built.make hhead hoperand.builtAll).builtAll

/-- The tree of `∫ f ⅆ x` is built from the atoms that were passed over for it. -/
theorem yields_integral : YieldsBuilt table beside s (integral table expr op) := by
  unfold integral
  refine .bind_advance hkind fun s₁ => (h _ s₁).bind fun integrand atoms s₂ hintegrand => ?_
  refine (Yields.expect rfl).bind fun _ empty s₃ hempty => ?_
  refine (h _ s₃).bind fun argument more s₄ hargument => .pure ?_
  rw [hempty, List.nil_append, List.append_nil]
  exact .make (OperatorTable.head_mem_heads hop) (.pair hintegrand hargument)

/-- The tree of the node of any other prefix operator is built from the atoms that were passed over
    for it. -/
theorem yields_prefixedNode : YieldsBuilt table beside s (prefixedNode table expr op) := by
  unfold prefixedNode
  refine .bind_advance hkind fun s₁ => (h _ s₁).bind fun operand atoms s₂ hoperand => .pure ?_
  rw [List.append_nil]
  exact .make (OperatorTable.head_mem_heads hop) hoperand.builtAll

/-! ## Spans -/

omit h hkind hop in
/-- The end that a span is given where none stands is a name, not an atom of the text. -/
theorem built_all (loc : Location) : Built table beside (.symbol "All" loc) [] :=
  .name (by decide)

omit hkind hop in
/-- The tree of the end of a span is built from the atoms that were passed over for it. -/
theorem yields_spanEnd (sign : Location) : YieldsBuilt table beside s (spanEnd expr op sign) := by
  unfold spanEnd
  refine .bind_peek ?_
  split
  · exact .pure (built_all sign)
  · refine (h _ s).attempt.bind fun stop? atoms s₁ hstop => .pure ?_
    rw [List.append_nil]
    cases stop? with
    | none =>
      obtain rfl : atoms = [] := hstop
      exact built_all sign
    | some stop => exact hstop

omit hkind hop in
/-- The tree of the step of a span is built from the atoms that were passed over for it. -/
theorem yields_spanStep? : Yields s (spanStep? expr op) fun step? atoms _ =>
    step?.elim (atoms = []) fun step => Built table beside step atoms := by
  unfold spanStep?
  refine .bind_peek ?_
  split
  · rename_i hspan
    refine .attempt (P := fun step atoms _ => Built table beside step atoms) ?_
    exact .bind_advance (by rw [hspan]; rfl) fun s₁ => h _ s₁
  · exact .pure rfl

/-- The tree of a span from its first mark on is built from the atoms that were passed over for
    it. -/
theorem yields_spanFrom {start : Expr} (hstart : Built table beside start atoms) :
    YieldsFrom table beside atoms s (spanFrom table expr start op) := by
  have hhead := OperatorTable.head_mem_heads hop
  unfold spanFrom
  refine .bind_advance hkind fun s₁ => .bind_atFinalEnd fun isEnd => ?_
  split
  · -- the input ends behind the sign
    exact .pure (.make hhead (.pair hstart (built_all _)))
  · refine (yields_spanEnd h _).bind fun stop more s₂ hstop => ?_
    refine (yields_spanStep? h).bind fun step? last s₃ hstep => ?_
    cases step? with
    | none =>
      -- without a step no more atoms are taken
      obtain rfl : last = [] := hstep
      refine .pure ?_
      rw [List.append_nil, List.append_nil]
      exact .make hhead (.pair hstart hstop)
    | some step =>
      refine .pure ?_
      rw [List.append_nil]
      exact .make hhead (.cons hstart (.pair hstop hstep))

/-- The tree of a span without a start is built from the atoms that were passed over for it. -/
theorem yields_leadingSpan : YieldsBuilt table beside s (leadingSpan table expr op) := by
  unfold leadingSpan
  have hone : Built table beside (.integer 1 (.empty s.current.loc.start)) [] := .integer
  exact .bind_peek (yields_spanFrom h hop hkind hone)

/-- The tree of a span behind its start is built from the atoms that were passed over for it. -/
theorem yields_trailingSpan (hlhs : Built table beside lhs atoms) :
    YieldsTurn table beside atoms s (trailingSpan table expr lhs op) := by
  unfold trailingSpan
  split
  · exact yieldsTurn_done hlhs
  · refine (yields_spanFrom h hop hkind hlhs).bind fun e more s₁ he => .pure ?_
    rw [List.append_nil]
    exact he

/-! ## All leading forms -/

/-- The tree of a prefix operator with its operands is built from the atoms that were passed over
    for it. -/
theorem yields_prefixed : YieldsBuilt table beside s (prefixed table expr op) := by
  unfold prefixed
  split
  · exact yields_minus h hop hkind
  · exact yields_plus h hkind
  · exact yields_information h hop hkind
  · exact yields_information h hop hkind
  · exact yields_doubleNegation h hop hkind
  · exact yields_integral h hop hkind
  · exact yields_leadingSpan h hop hkind
  · exact yields_prefixedNode h hop hkind

end Leading

omit h in
/-- The tree of an atom is built from the atoms that were passed over for it. -/
theorem yields_atom (hkind : s.current.kind.isAtom = true) :
    YieldsBuilt table beside s (atom table) := by
  unfold atom
  refine .bind_peek (.bind_ofResult fun e he => ?_)
  exact .bind_advance_atom hkind fun s₁ => .pure (.atom hkind he)

/-! ## Operators after an operand -/

section Trailing

variable (hop : op ∈ table.operators) (hkind : s.current.kind.isAtom = false)
  (hlhs : Built table beside lhs atoms)
include hkind hlhs

/-- The tree of `f @ x` is built from the atoms that were passed over for it. -/
theorem yields_prefixApplication :
    YieldsFrom table beside atoms s (prefixApplication expr lhs op) := by
  unfold prefixApplication
  refine .bind_advance hkind fun s₁ => (h _ s₁).bind fun rhs more s₂ hrhs => .pure ?_
  rw [List.append_nil]
  exact .apply hlhs hrhs.element.elements

/-- The tree of `x // f` is built from the atoms that were passed over for it. -/
theorem yields_postfixApplication :
    YieldsFrom table beside atoms s (postfixApplication expr lhs op) := by
  unfold postfixApplication
  refine .bind_advance hkind fun s₁ => (h _ s₁).bind fun rhs more s₂ hrhs => .pure ?_
  rw [List.append_nil]
  exact .perm (.apply hrhs hlhs.element.elements) List.perm_append_comm

/-- The tree of `a ~ f ~ b` is built from the atoms that were passed over for it. -/
theorem yields_infixApplication (hkind' : op.kind.isAtom = false) :
    YieldsFrom table beside atoms s (infixApplication expr lhs op) := by
  unfold infixApplication
  refine .bind_advance hkind fun s₁ => (h _ s₁).bind fun f middle s₂ hf => ?_
  refine (Yields.expect hkind').bind fun _ empty s₃ hempty => ?_
  refine (h _ s₃).bind fun rhs more s₄ hrhs => .pure ?_
  rw [hempty, List.nil_append, List.append_nil]
  refine .perm (.apply hf (BuiltAll.pair hlhs hrhs).elements) ?_
  -- the head is written between the arguments
  rw [← List.append_assoc, ← List.append_assoc]
  exact List.perm_append_comm.append_right more

include hop

/-- The tree of the node of an infix operator is built from the atoms that were passed over for
    it. -/
theorem yields_infixedNode : YieldsFrom table beside atoms s (infixedNode table expr lhs op) := by
  unfold infixedNode
  split
  · exact ⟨fun hthrow => nomatch hthrow⟩
  · refine .bind_advance hkind fun s₁ => (h _ s₁).bind fun rhs more s₂ hrhs => .pure ?_
    rw [List.append_nil]
    exact .make (OperatorTable.head_mem_heads hop) (.pair hlhs hrhs)

omit h in
/-- The tree of the node of a postfix operator is built from the atoms that were passed over for
    it. -/
theorem yields_postfixedNode :
    YieldsFrom table beside atoms s (postfixedNode table lhs op) := by
  unfold postfixedNode
  refine .bind_advance hkind fun s₁ => .pure ?_
  rw [List.append_nil]
  exact .make (OperatorTable.head_mem_heads hop) hlhs.builtAll

/-- The tree of `a - b` is built from the atoms that were passed over for it. -/
theorem yields_difference : YieldsFrom table beside atoms s (difference table expr lhs op) := by
  unfold difference
  refine .bind_advance hkind fun s₁ => (h _ s₁).bind fun rhs more s₂ hrhs => .pure ?_
  rw [List.append_nil]
  have htimes : "Times" ∈ table.heads := List.mem_append_right _ (by decide)
  exact .make (OperatorTable.head_mem_heads hop) (.pair hlhs (.negate htimes hrhs))

/-- The tree of `a / b` is built from the atoms that were passed over for it. -/
theorem yields_quotient : YieldsFrom table beside atoms s (quotient table expr lhs op) := by
  unfold quotient
  refine .bind_advance hkind fun s₁ => (h _ s₁).bind fun rhs more s₂ hrhs => .pure ?_
  rw [List.append_nil]
  have hpower : "Power" ∈ table.heads := List.mem_append_right _ (by decide)
  have hreciprocal : ∀ sign loc,
      Built table beside (.make table "Power" [rhs, .integer (-1) sign] loc) more := by
    intro sign loc
    exact .make hpower (by simpa using BuiltAll.pair hrhs .integer)
  exact .make (OperatorTable.head_mem_heads hop) (.pair hlhs (hreciprocal _ _))

/-- The tree of a comparison is built from the atoms that were passed over for it. -/
theorem yields_comparison : YieldsFrom table beside atoms s (comparison table expr lhs op) := by
  unfold comparison
  refine .bind_advance hkind fun s₁ => (h _ s₁).bind fun rhs more s₂ hrhs => .pure ?_
  rw [List.append_nil]
  exact .compare (OperatorTable.head_mem_heads hop) hlhs hrhs

/-- The tree of `f @@@ x` is built from the atoms that were passed over for it. -/
theorem yields_levelApplication :
    YieldsFrom table beside atoms s (levelApplication table expr lhs op) := by
  have hlist : "List" ∈ table.heads := List.mem_append_right _ (by decide)
  unfold levelApplication
  refine .bind_advance hkind fun s₁ => (h _ s₁).bind fun rhs more s₂ hrhs => .pure ?_
  rw [List.append_nil]
  have hlevel : ∀ sign, Built table beside (.make table "List" [.integer 1 sign] sign) [] :=
    fun sign => .make hlist Built.integer.builtAll
  refine .make (OperatorTable.head_mem_heads hop) (.cons hlhs ?_)
  simpa using BuiltAll.pair hrhs (hlevel s.current.loc)

/-- The tree of a pure function is built from the atoms that were passed over for it. -/
theorem yields_pureFunction :
    YieldsFrom table beside atoms s (pureFunction table expr lhs op) := by
  have hhead := OperatorTable.head_mem_heads hop
  unfold pureFunction
  refine .bind_peek (.bind_advance hkind fun s₁ => ?_)
  split
  · refine .pure ?_
    rw [List.append_nil]
    exact .make hhead hlhs.builtAll
  · refine (h _ s₁).bind fun body more s₂ hbody => .pure ?_
    rw [List.append_nil]
    exact .make hhead (.pair hlhs hbody)

/-- The tree of `a; b` is built from the atoms that were passed over for it. -/
theorem yields_compound : YieldsFrom table beside atoms s (compound table expr lhs op) := by
  have hhead := OperatorTable.head_mem_heads hop
  have hnull : ∀ loc, Built table beside (.symbol "Null" loc) [] := fun loc => .name (by decide)
  unfold compound
  refine .bind_advance hkind fun s₁ => .bind_atFinalEnd fun isEnd => ?_
  dsimp only
  split
  · -- the statement behind the sign is left out at the end of the input
    refine .pure ?_
    rw [List.append_nil]
    exact .make hhead (by simpa using BuiltAll.pair hlhs (hnull _))
  · refine (h _ s₁).attempt.bind fun rhs? more s₂ hrhs => .pure ?_
    rw [List.append_nil]
    cases rhs? with
    | none =>
      -- it is left out before something else, and the attempt to read it took no atoms
      obtain rfl : more = [] := hrhs
      exact .make hhead (.pair hlhs (hnull _))
    | some rhs => exact .make hhead (.pair hlhs hrhs)

/-- The tree of `x:p` or `p:v` is built from the atoms that were passed over for it. -/
theorem yields_colon (p : Precedence) :
    YieldsTurn table beside atoms s (colon table expr lhs op p) := by
  unfold colon
  split
  · exact yieldsTurn_done hlhs
  split
  · exact yieldsTurn_done hlhs
  · rename_i head precedence hmeaning hp
    -- the head is the operator's or that of default values
    have hhead : head ∈ table.heads := by
      unfold colonMeaning? at hmeaning
      split at hmeaning
      · obtain ⟨rfl, -⟩ := Prod.mk.inj (Option.some.inj hmeaning)
        exact OperatorTable.head_mem_heads hop
      · split at hmeaning
        · obtain ⟨rfl, -⟩ := Prod.mk.inj (Option.some.inj hmeaning)
          exact List.mem_append_right _ (by decide)
        · cases hmeaning
    refine .bind_advance hkind fun s₁ => (h _ s₁).bind fun rhs more s₂ hrhs => .pure ?_
    rw [List.append_nil]
    exact .make hhead (.pair hlhs hrhs)

omit hop in
/-- The tree of `f /: p = v` is built from the atoms that were passed over for it. -/
theorem yields_tagSet : YieldsFrom table beside atoms s (tagSet table expr lhs op) := by
  unfold tagSet
  refine .bind_advance hkind fun s₁ => (h _ s₁).bind fun pattern more s₂ hpattern => ?_
  refine .bind_peek ?_
  split
  · exact .missing _
  · rename_i head hhead
    -- the head of an assignment is one of three, each from an operator
    have hknown : head ∈ table.heads ∧ s₂.current.kind.isAtom = false := by
      unfold tagHead? at hhead
      split at hhead
      · rename_i hkind'
        cases hhead
        exact ⟨List.mem_append_right _ (by decide), by rw [hkind']; rfl⟩
      · rename_i hkind'
        cases hhead
        exact ⟨List.mem_append_right _ (by decide), by rw [hkind']; rfl⟩
      · rename_i hkind'
        cases hhead
        exact ⟨List.mem_append_right _ (by decide), by rw [hkind']; rfl⟩
      · cases hhead
    refine .bind_advance hknown.2 fun s₃ => ?_
    split
    · -- nothing is assigned
      refine .pure ?_
      rw [List.append_nil]
      exact .make hknown.1 (.pair hlhs hpattern)
    · refine (h _ s₃).bind fun value last s₄ hvalue => .pure ?_
      rw [List.append_nil]
      exact .make hknown.1 (.cons hlhs (.pair hpattern hvalue))

omit h hkind in
/-- The tree of `f''` is built from the atoms that were passed over for it. -/
theorem yields_derivative (hkind' : op.kind.isAtom = false) :
    YieldsFrom table beside atoms s (derivative table lhs op) := by
  -- marks are no atoms, so counting them takes none
  have hturn : ∀ marks more s₁, more = [] → Yields s₁ (derivativeTurn op marks)
      fun outcome last _ =>
        outcome.Holds (fun _ => more ++ last = []) fun _ => more ++ last = [] := by
    rintro marks more s₁ rfl
    unfold derivativeTurn
    refine .bind_peek ?_
    split
    · rename_i hmark
      exact .bind_advance (by rw [hmark, hkind']) fun s₂ => .pure rfl
    · exact .pure rfl
  unfold derivative
  refine .bind_peek ?_
  have hmarks := Yields.iterate (I := fun _ more _ => more = []) (Q := fun _ more _ => more = [])
    (s := s) (v := (0, s.current.loc)) hturn rfl
  refine Yields.bind hmarks fun marks more s₁ hmore => .pure ?_
  obtain rfl : more = [] := hmore
  have hhead : ∀ order loc, Built table beside (.make table op.head [.integer order loc] loc) [] :=
    fun order loc => .make (OperatorTable.head_mem_heads hop) Built.integer.builtAll
  simpa using (hhead _ _).apply hlhs.element.elements

omit h hkind in
/-- The tree of `a::b` is built from the atoms that were passed over for it. -/
theorem yields_messageName (hkind' : op.kind.isAtom = false) :
    YieldsFrom table beside atoms s (messageName table lhs op) := by
  -- every tag is an atom, and no mark before a tag is
  have hturn : ∀ message more s₁, BuiltAll table beside message.1 more →
      Yields s₁ (messageTurn op message) fun outcome last _ =>
        outcome.Holds (fun message => BuiltAll table beside message.1 (more ++ last))
          fun message => BuiltAll table beside message.1 (more ++ last) := by
    intro message more s₁ hmessage
    unfold messageTurn
    refine .bind_peek ?_
    split
    · rename_i hmark
      refine .bind_advance (by rw [hmark, hkind']) fun s₂ => .bind_peek ?_
      split
      · rename_i htag
        have hatom : s₂.current.kind.isAtom = true := by
          rcases htag with htag | htag <;> rw [htag] <;> rfl
        refine .bind_advance_atom hatom fun s₃ => .pure ?_
        exact hmessage.append (Built.tag htag).builtAll
      · exact .unexpected
    · exact .pure (by simpa [Turn.Holds] using hmessage)
  unfold messageName
  have hmessage := Yields.iterate
    (I := fun (message : List Expr × Location) more _ => BuiltAll table beside message.1 more)
    (Q := fun (message : List Expr × Location) more _ => BuiltAll table beside message.1 more)
    (s := s) (v := ([lhs], lhs.loc)) hturn hlhs.builtAll
  refine Yields.bind hmessage fun message more s₁ hall => .pure ?_
  rw [List.append_nil]
  exact .make (OperatorTable.head_mem_heads hop) hall

end Trailing

/-! ## All trailing forms -/

section Tables

variable (hatoms : ∀ op ∈ table.operators, op.kind.isAtom = false)
  (hbeside : ∀ {s s' s'' : State} {e e' : Expr}, expr 0 s = .ok e s' →
    expr 0 s' = .ok e' s'' → beside e)
include hatoms

omit hatoms in
/-- The tree of expressions side by side is built from the atoms that were passed over for it. -/
theorem yields_juxtaposition (hlhs : Built table beside lhs atoms) (p : Precedence) :
    YieldsTurn table beside atoms s (juxtaposition table expr lhs p) := by
  unfold juxtaposition
  refine .bind_peek ?_
  split
  · exact yieldsTurn_done hlhs
  · rename_i times htimes
    split
    · exact yieldsTurn_done hlhs
    · -- two expressions side by side are a product with no token of its own
      refine (h _ s).bind fun rhs more s₁ hrhs => .pure ?_
      rw [List.append_nil]
      have hhead := OperatorTable.head_mem_heads (OperatorTable.mem_of_lookup? htimes)
      exact .make hhead (.pair hlhs hrhs)

include hbeside

/-- The tree of any form that extends an operand is built from the atoms that were passed over for
    it. -/
theorem yields_extended (hlhs : Built table beside lhs atoms)
    (hfound : table.trailing? s.current.kind = some op) :
    YieldsTurn table beside atoms s (extended table expr lhs op s.current.kind) := by
  obtain ⟨hop, hkind', -⟩ := OperatorTable.mem_of_trailing? hfound
  have hkind : op.kind.isAtom = false := hatoms op hop
  have hcurrent : s.current.kind.isAtom = false := by rw [← hkind', hkind]
  unfold extended
  split
  · exact (yields_messageName hop hlhs hkind).again
  · rename_i hbracket
    rw [hbracket] at hfound
    exact (yields_callOrPart h hbeside hfound hcurrent hlhs).again
  · exact (yields_derivative hop hlhs hkind).again
  · exact (yields_difference h hop hcurrent hlhs).again
  · exact (yields_quotient h hop hcurrent hlhs).again
  -- the six comparisons share one rule
  iterate 6 exact (yields_comparison h hop hcurrent hlhs).again
  · exact (yields_prefixApplication h hcurrent hlhs).again
  · exact (yields_postfixApplication h hcurrent hlhs).again
  · exact (yields_infixApplication h hcurrent hlhs hkind).again
  · exact (yields_levelApplication h hop hcurrent hlhs).again
  · exact (yields_pureFunction h hop hcurrent hlhs).again
  · exact (yields_compound h hop hcurrent hlhs).again
  · exact yields_trailingSpan h hop hcurrent hlhs
  · exact (yields_tagSet h hcurrent hlhs).again
  split
  · exact (yields_infixedNode h hop hcurrent hlhs).again
  · exact (yields_postfixedNode hop hcurrent hlhs).again
  · exact yieldsTurn_done hlhs
  · exact yieldsTurn_done hlhs

/-- The tree of what extends an operand or ends it is built from the atoms that were passed over for
    it. -/
theorem yields_trailing (hlhs : Built table beside lhs atoms) (p : Precedence) :
    YieldsTurn table beside atoms s (trailing table expr p lhs) := by
  unfold trailing
  refine .bind_peek ?_
  split
  · exact yields_juxtaposition h hlhs p
  rename_i op hfound
  obtain ⟨hop, hkind, -⟩ := OperatorTable.mem_of_trailing? hfound
  have hcurrent : s.current.kind.isAtom = false := by rw [← hkind, hatoms op hop]
  split
  · exact yields_colon h hop hcurrent hlhs p
  split
  · exact yieldsTurn_done hlhs
  · exact yields_extended h hatoms hbeside hlhs hfound

/-! ## Expressions -/

/-- The tree of a leading form is built from the atoms that were passed over for it. -/
theorem yields_leading : YieldsBuilt table beside s (leading table expr) := by
  unfold leading
  refine .bind_peek ?_
  split
  · rename_i op hfound
    have hop := OperatorTable.mem_of_lookup? hfound
    -- a prefix operator is no atom
    have hkind := (Prod.mk.inj (OperatorTable.key_of_lookup? hfound)).1
    exact yields_prefixed h hop (by rw [← hkind, hatoms op hop])
  split
  · rename_i hkind
    exact yields_group h (by rw [hkind]; rfl)
  · rename_i hkind
    exact yields_bracketed h hbeside (by simp [OperatorTable.sequenceHeads]) (by rw [hkind]; rfl)
      rfl
  · rename_i hkind
    exact yields_bracketed h hbeside (by simp [OperatorTable.sequenceHeads]) (by rw [hkind]; rfl)
      rfl
  split
  · rename_i hatom
    exact yields_atom hatom
  · exact .unexpected

/-- The tree of a leading form with all that extends it is built from the atoms that were passed
    over for it. -/
theorem yields_chain (p : Precedence) : YieldsBuilt table beside s (chain table expr p) := by
  unfold chain
  refine (yields_leading h hatoms hbeside).bind fun e atoms s₁ he => ?_
  exact .iterate (I := fun e atoms _ => Built table beside e atoms)
    (Q := fun e atoms _ => Built table beside e atoms)
    (fun e atoms s₂ he => yields_trailing h hatoms hbeside he p) he

end Tables

end Rules

section Expressions

variable (hatoms : ∀ op ∈ table.operators, op.kind.isAtom = false)
  (hbeside : ∀ {room : Nat} {s s' s'' : State} {e e' : Expr}, expression table room 0 s = .ok e s' →
    expression table room 0 s' = .ok e' s'' → beside e)
include hatoms hbeside

/-- Whatever is read as an expression is built from the atoms passed over. -/
theorem yields_expression (room : Nat) (p : Precedence) (s : State) :
    YieldsBuilt table beside s (expression table room p) := by
  induction room generalizing p s with
  | zero => exact ⟨fun h => nomatch h⟩
  | succ room ih => exact .remember (yields_chain ih hatoms hbeside p)

/-! ## Whole inputs -/

/-- The tree of a whole input is built from the atoms that were passed over for it. -/
theorem yields_program (limit : Nat) : Yields s (program ⟨table, limit⟩) fun e? atoms s' =>
    s'.current.kind = .endOfInput ∧ e?.elim (atoms = []) fun e => Element table beside e atoms := by
  -- before the end there are no expressions and no atoms, or factors that were built from all atoms
  let I (factors : List Expr) (atoms : List Token) (s : State) : Prop :=
    (factors = [] ∧ atoms = []) ∨ Factors table beside (expression table limit) factors atoms s
  let Q (e? : Option Expr) (atoms : List Token) (s : State) : Prop :=
    s.current.kind = .endOfInput ∧
      e?.elim (atoms = []) fun e => Element table beside e atoms
  refine Yields.iterate (I := I) (Q := Q) (fun factors atoms s₁ hfactors => ?_) (.inl ⟨rfl, rfl⟩)
  have h := yields_expression hatoms hbeside limit
  unfold programTurn
  refine .bind_peek ?_
  split
  · -- the input ends: its expressions make one tree
    rename_i hend
    refine .pure ?_
    rw [List.append_nil]
    rcases hfactors with ⟨rfl, rfl⟩ | hfactors
    · exact ⟨hend, rfl⟩
    · obtain ⟨e, he, helement⟩ := hfactors.exists_element
      rw [he]
      exact ⟨hend, helement⟩
  · -- one more expression, which is the first or another factor
    rcases hfactors with ⟨rfl, rfl⟩ | hfactors
    · refine (yields_firstFactor h).bind fun e more s₂ hfirst => .pure ?_
      rw [List.append_nil]
      exact .inr hfirst
    · refine (yields_factor h hbeside hfactors).bind fun e more s₂ hmore => .pure ?_
      rw [List.append_nil]
      exact .inr hmore

/-- The tree of an input is built from the atoms before the end of the input. -/
theorem element_of_readTokens {limit : Nat} {tokens : List Token} {e : Expr}
    (h : readTokens ⟨table, limit⟩ tokens = .ok (some e)) :
    Element table beside e
      ((tokens.takeWhile (·.kind != .endOfInput)).filter (·.kind.isAtom)) := by
  unfold readTokens run at h
  split at h
  · rename_i e? s' hprogram
    obtain rfl : e? = some e := by simpa using h
    obtain ⟨atoms, ⟨passed, hrest, hpassed⟩, hend, helement⟩ :=
      (yields_program hatoms hbeside limit).passes hprogram
    -- nothing remains, as no token before the end of the input is one itself
    have hnil : s'.rest = [] := by
      cases hs : s'.rest with
      | nil => rfl
      | cons t rest =>
        have hmem : t ∈ (State.ofTokens tokens).rest := by
          rw [hrest, hs]
          simp
        have hall := List.all_takeWhile (p := fun t : Token => t.kind != .endOfInput) (l := tokens)
        have ht := List.all_eq_true.mp hall t hmem
        simp only [State.current, hs, List.head?_cons, Option.getD_some] at hend
        simp [hend] at ht
    rw [hnil, List.append_nil] at hrest
    have hatoms : (tokens.takeWhile (·.kind != .endOfInput)).filter (·.kind.isAtom) = atoms := by
      rw [← hpassed, ← hrest]
      rfl
    rw [hatoms]
    exact helement
  · cases h

end Expressions

end Symbolic.Reader
