import Mathlib.Data.List.Induction
import Symbolic.Proofs.Comparisons.Operand
import Symbolic.Proofs.Likeness.Data

/-!
# Chains of comparisons

A chain of comparisons is read one comparison after the other, and each turn looks at what the
turns before have made: a node of the same comparison takes up one more operand, a node of another
comparison becomes an inequality, and an inequality takes up the name of the comparison and the
operand. An operand in brackets of its own may look like any of these, but is never taken apart.

## Key results

- `compare_chainTree`: one more comparison takes the tree of a chain to that of the longer chain
- `eventually_iterate_links`: what the turns over a chain build, one by one
- `exists_readTokens_comparisons`: the tree of a chain of any length
-/

namespace Symbolic.Comparisons

open Reader Parse Filter

/-! ## Trees of chains -/

/-- The comparisons of the language, with their heads. -/
def signs : List (TokenKind × String) :=
  [(.equal, "Equal"), (.unequal, "Unequal"), (.less, "Less"), (.greater, "Greater"),
    (.lessEqual, "LessEqual"), (.greaterEqual, "GreaterEqual")]

/-- The tree of a chain that goes on from its first operand with the links, each the head of a
    comparison and an operand. Where there is just one comparison, it has all the operands. Where
    there are several, an inequality has their names between the operands. -/
def chainTree (first : Expr) : List (String × Expr) → Expr
  | [] => first
  | (head, second) :: links =>
    if ∀ link ∈ links, link.1 = head then
      .node (.symbol head .zero) (first :: second :: links.map (·.2)) false .zero
    else
      .node (.symbol "Inequality" .zero)
        (first :: ((head, second) :: links).flatMap fun link => [.symbol link.1 .zero, link.2])
        false .zero

variable {first second rhs : Expr} {head op : String} {links : List (String × Expr)}

/-- Equal comparisons make one node of all operands. -/
theorem chainTree_of_forall_eq (h : ∀ link ∈ links, link.1 = head) :
    chainTree first ((head, second) :: links) =
      .node (.symbol head .zero) (first :: second :: links.map (·.2)) false .zero :=
  if_pos h

/-- Different comparisons make an inequality. -/
theorem chainTree_of_exists_ne (h : ¬∀ link ∈ links, link.1 = head) :
    chainTree first ((head, second) :: links) =
      .node (.symbol "Inequality" .zero)
        (first :: ((head, second) :: links).flatMap fun link => [.symbol link.1 .zero, link.2])
        false .zero :=
  if_neg h

/-! ## One more comparison -/

/-- A sign of comparison has a flat head. -/
theorem mem_comparisonHeads_of_signs {kind : TokenKind} (h : (kind, op) ∈ signs) :
    op ∈ comparisonHeads ∧ op ≠ "Inequality" ∧ Expr.isComparison op = true ∧
      OperatorTable.standard.isFlat op = true := by
  have hall : ∀ sign ∈ signs, sign.2 ∈ comparisonHeads ∧ sign.2 ≠ "Inequality" ∧
      Expr.isComparison sign.2 = true ∧ OperatorTable.standard.isFlat sign.2 = true := by
    decide +kernel
  exact hall _ h

/-- An operand that stays whole contributes itself. -/
theorem contribution_of_staysWhole (h : StaysWhole first) (hop : op ∈ comparisonHeads) :
    Expr.contribution op first = [first] := by
  simp [Expr.contribution, h op hop]

/-- Two operands that are no chains themselves are compared. -/
theorem compare_of_staysWhole {kind : TokenKind} (hop : (kind, op) ∈ signs)
    (hfirst : StaysWhole first) (hrhs : StaysWhole rhs) :
    Expr.compare .standard first op .zero rhs .zero =
      .node (.symbol op .zero) [first, rhs] false .zero := by
  obtain ⟨hmem, -, -, hflat⟩ := mem_comparisonHeads_of_signs hop
  have hmake : Expr.make .standard op [first, rhs] .zero =
      .node (.symbol op .zero) [first, rhs] false .zero := by
    simp [Expr.make, Expr.arguments, hflat, contribution_of_staysWhole hfirst hmem,
      contribution_of_staysWhole hrhs hmem]
  -- the first operand is neither an inequality nor a comparison that is open
  have hclosed : ∀ head loc children loc',
      first = .node (.symbol head loc) children false loc' → head ∉ comparisonHeads := by
    rintro head loc children loc' rfl hhead
    simpa [Expr.isOpenNode, Expr.headName?, Expr.symbolName?, Expr.isParenthesized] using
      hfirst head hhead
  unfold Expr.compare
  split
  · rename_i head headLoc children loc'
    have hnot := hclosed head headLoc children loc' rfl
    rw [if_neg (by rintro rfl; exact hnot (by decide)),
      if_neg fun h => hnot (mem_comparisonHeads h.2), hmake]
  · exact hmake

/-- A chain of one comparison takes up an operand to the same comparison. -/
theorem compare_same {kind : TokenKind} {children : List Expr} (hop : (kind, op) ∈ signs)
    (hrhs : StaysWhole rhs) :
    Expr.compare .standard (.node (.symbol op .zero) children false .zero) op .zero rhs .zero =
      .node (.symbol op .zero) (children ++ [rhs]) false .zero := by
  obtain ⟨hmem, hne, -, hflat⟩ := mem_comparisonHeads_of_signs hop
  have hopen : Expr.isOpenNode op (.node (.symbol op .zero) children false .zero) = true := by
    simp [Expr.isOpenNode, Expr.headName?, Expr.symbolName?, Expr.isParenthesized]
  have hchildren : Expr.contribution op (.node (.symbol op .zero) children false .zero) =
      children := by
    simp [Expr.contribution, hopen, Expr.children]
  unfold Expr.compare
  dsimp only
  rw [if_neg hne, if_neg (by simp)]
  simp [Expr.make, Expr.arguments, hflat, hchildren, contribution_of_staysWhole hrhs hmem]

/-- A chain of one comparison becomes an inequality with another one. -/
theorem compare_other {kind : TokenKind} {children : List Expr} (hhead : (kind, head) ∈ signs)
    (hne : head ≠ op) :
    Expr.compare .standard (.node (.symbol head .zero) children false .zero) op .zero rhs .zero =
      .node (.symbol "Inequality" .zero)
        (children.intersperse (.symbol head .zero) ++ [.symbol op .zero, rhs]) false .zero := by
  obtain ⟨-, hinequality, hcomparison, -⟩ := mem_comparisonHeads_of_signs hhead
  have hflat : OperatorTable.standard.isFlat "Inequality" = false := by decide +kernel
  unfold Expr.compare
  dsimp only
  rw [if_neg hinequality, if_pos ⟨hne, hcomparison⟩]
  simp [Expr.make, Expr.arguments, hflat]

/-- Between the operands of a chain of one comparison stands the name of that comparison. -/
theorem intersperse_eq_flatMap (first : Expr) (h : ∀ link ∈ links, link.1 = head) :
    (first :: links.map (·.2)).intersperse (.symbol head .zero) =
      first :: links.flatMap fun link => [.symbol link.1 .zero, link.2] := by
  induction links generalizing first with
  | nil => rfl
  | cons link links ih =>
    rw [List.map_cons, List.intersperse_cons_cons, ih _ fun link hlink => h link (by simp [hlink]),
      List.flatMap_cons, h link (by simp)]
    rfl

/-- With one more comparison the tree of a chain is that of the longer chain, wherever the chain
    changes from one comparison to another. -/
theorem compare_chainTree (hfirst : StaysWhole first)
    (hlinks : ∀ link ∈ links, ∃ kind, (kind, link.1) ∈ signs)
    (hop : ∃ kind, (kind, op) ∈ signs) (hrhs : StaysWhole rhs)
    (hoperands : ∀ link ∈ links, StaysWhole link.2) :
    Expr.compare .standard (chainTree first links) op .zero rhs .zero =
      chainTree first (links ++ [(op, rhs)]) := by
  obtain ⟨kind, hop⟩ := hop
  cases links with
  | nil =>
    rw [List.nil_append, chainTree_of_forall_eq (by simp)]
    exact compare_of_staysWhole hop hfirst hrhs
  | cons link links =>
    obtain ⟨head, second⟩ := link
    obtain ⟨kind', hhead⟩ := hlinks (head, second) (by simp)
    rw [List.cons_append]
    by_cases huniform : ∀ link ∈ links, link.1 = head
    · rw [chainTree_of_forall_eq huniform]
      by_cases heq : head = op
      · -- one comparison as before
        subst heq
        have huniform' : ∀ link ∈ links ++ [(head, rhs)], link.1 = head := by
          simpa [or_imp, forall_and] using huniform
        rw [compare_same hop hrhs, chainTree_of_forall_eq huniform']
        simp
      · -- here the comparison changes for the first time
        have hmixed : ¬∀ link ∈ links ++ [(op, rhs)], link.1 = head :=
          fun h => heq (h (op, rhs) (by simp)).symm
        have huniform' : ∀ link ∈ (head, second) :: links, link.1 = head := by
          simpa using huniform
        have hnames := intersperse_eq_flatMap first huniform'
        rw [List.map_cons] at hnames
        rw [compare_other hhead heq, hnames, chainTree_of_exists_ne hmixed]
        simp
    · -- an inequality already
      have hmixed : ¬∀ link ∈ links ++ [(op, rhs)], link.1 = head :=
        fun h => huniform fun link hlink => h link (by simp [hlink])
      rw [chainTree_of_exists_ne huniform, chainTree_of_exists_ne hmixed]
      simp [Expr.compare]

/-! ## Chains of tokens -/

/-- An operand that is accepted by itself. -/
structure Operand where
  tokens : List Token
  tree : Expr
  limit : Nat
  shape : OperandTokens tokens
  endFree : ∀ t ∈ tokens, t.kind ≠ .endOfInput
  accepted : readTokens ⟨.standard, limit⟩ tokens = .ok (some tree)

/-- A comparison and the operand to its right. -/
structure Link where
  sign : Token
  head : String
  operand : Operand
  compares : (sign.kind, head) ∈ signs

/-- The tokens of links. -/
def linkTokens (links : List Link) : List Token :=
  links.flatMap fun link => link.sign :: link.operand.tokens

/-- What the tree of a chain is made of. -/
def treeLinks (links : List Link) : List (String × Expr) :=
  links.map fun link => (link.head, link.operand.tree)

/-- The tree that a link makes of the tree to its left. -/
def withLink (lhs : Expr) (link : Link) : Expr :=
  .compare .standard lhs link.head link.sign.loc link.operand.tree
    (lhs.loc.union link.operand.tree.loc)

/-- Every operand is sealed. -/
theorem Operand.sealed (operand : Operand) : Sealed operand.tree :=
  (operand.shape.reads_of_readTokens operand.endFree operand.accepted).1

/-- Every operand stays whole. -/
theorem Operand.staysWhole (operand : Operand) : StaysWhole operand.tree :=
  operand.sealed.staysWhole

/-- Every operand is read as its tree. -/
theorem Operand.reads (operand : Operand) : Reads operand.tokens operand.tree :=
  (operand.shape.reads_of_readTokens operand.endFree operand.accepted).2

/-- An operand ends before a token that binds less tightly than asked for. -/
theorem Operand.eventually_read (operand : Operand) {s : State} {rest : List Token}
    {p : Precedence} (hs : s.failures = []) (hp : p ≤ 670)
    (hstop : OperatorTable.standard.Stops p (s.before rest).current.kind) :
    ∀ᶠ room in atTop, Forgetful.expression .standard room p (s.before (operand.tokens ++ rest)) =
      .ok operand.tree (s.before rest) :=
  eventually_expression_of_chain (operand.reads s rest p hs hp) hstop

/-- An operand and what extends it up to the end make a whole input. -/
theorem Operand.eventually_extended (operand : Operand) {after ending : List Token} {e : Expr}
    (hafter : ∀ t ∈ after, t.kind ≠ .endOfInput)
    (hending : ∀ t ∈ ending.head?, t.kind = .endOfInput)
    (h : ∀ s : State, s.failures = [] → ∀ᶠ room in atTop,
      iterate (trailing .standard (Forgetful.expression .standard room) 0) operand.tree
        (s.before after) = .ok e (s.before [])) :
    ∀ᶠ limit in atTop, readTokens ⟨.standard, limit⟩ (operand.tokens ++ after ++ ending) =
      .ok (some e) := by
  refine eventually_readTokens (List.forall_mem_append.mpr ⟨operand.endFree, hafter⟩)
    (by simp [operand.shape.ne_nil]) hending (eventually_expression ?_)
  filter_upwards [operand.reads (.ofTokens (operand.tokens ++ after ++ ending)) after 0 rfl
    (by decide), h (.ofTokens (operand.tokens ++ after ++ ending)) rfl] with room hread hafter
  rw [hread, hafter]

/-- An atom that stands for something is an operand, however it is spelled. -/
def Operand.ofAtom (t : Token) (tree : Expr) (isAtom : t.kind.isAtom = true)
    (atom : Expr.atom .standard t = .ok tree) : Operand where
  tokens := [t]
  tree := tree
  limit := 1
  shape := .atom isAtom
  endFree := by simpa using ne_endOfInput_of_isAtom isAtom
  accepted := readTokens_of_expression (by simpa using ne_endOfInput_of_isAtom isAtom)
    (List.cons_ne_nil t []) Token.kind_of_mem_nil
    (chain_ok (leading_standard_atom isAtom atom) (iterate_of_stops (stops_endOfInput 0)))

/-- Link by link, the trees of the chain are made, but for locations. -/
theorem foldl_extend_like (first : Operand) (links : List Link) :
    Expr.Like (fun _ _ => True) (links.foldl withLink first.tree)
      (chainTree first.tree (treeLinks links)) := by
  -- induction from the left: the last link is the last to be made
  induction links using List.reverseRecOn with
  | nil => exact Expr.like_self (fun _ => trivial) first.tree
  | append_singleton links link ih =>
    have hlinks : ∀ l ∈ treeLinks links, (∃ kind, (kind, l.1) ∈ signs) ∧ StaysWhole l.2 := by
      intro l hl
      obtain ⟨link', -, rfl⟩ := List.mem_map.mp hl
      exact ⟨⟨_, link'.compares⟩, link'.operand.staysWhole⟩
    have hstep := compare_chainTree first.staysWhole (fun l hl => (hlinks l hl).1)
      ⟨_, link.compares⟩ link.operand.staysWhole fun l hl => (hlinks l hl).2
    rw [List.foldl_append, treeLinks, List.map_append, List.map_singleton, ← treeLinks, ← hstep]
    exact Expr.like_compare ih link.head trivial
      (Expr.like_self (fun _ => trivial) link.operand.tree) trivial

/-! ## Reading a chain -/

variable {s s' : State} {tokens : List Token} {expr : Precedence → Parse Expr} {p : Precedence}
  {lhs : Expr}

/-- A sign of comparison extends an operand by a comparison. -/
theorem exists_trailing_of_sign {kind : TokenKind} (h : (kind, head) ∈ signs) :
    ∃ op : Operator, OperatorTable.standard.trailing? kind = some op ∧ op.head = head ∧
      op.precedence = 290 ∧ kind ≠ .rawColon ∧
      ∀ expr lhs, extended .standard expr lhs op kind =
        Turn.again <$> comparison .standard expr lhs op := by
  -- the six comparisons have one rule and one precedence
  simp only [signs, List.mem_cons, Prod.mk.injEq, List.not_mem_nil, or_false] at h
  obtain ⟨rfl, rfl⟩ | ⟨rfl, rfl⟩ | ⟨rfl, rfl⟩ | ⟨rfl, rfl⟩ | ⟨rfl, rfl⟩ | ⟨rfl, rfl⟩ := h
  all_goals exact ⟨_, rfl, rfl, rfl, by decide, fun _ _ => rfl⟩

/-- A comparison ends an operand of a comparison. -/
theorem stops_sign {kind : TokenKind} (h : (kind, head) ∈ signs) :
    OperatorTable.standard.Stops 291 kind := by
  obtain ⟨op, hfound, -, hprecedence, hcolon, -⟩ := exists_trailing_of_sign h
  refine ⟨hcolon, fun q hq => ?_⟩
  have heq : op.precedence = q := by simpa [OperatorTable.grip?, hfound] using hq
  rw [← heq, hprecedence]
  decide

/-- One turn reads a link. -/
theorem trailing_link (link : Link) (hp : p ≤ 290)
    (h : expr 291 (s.before tokens) = .ok link.operand.tree s') :
    trailing .standard expr p lhs (s.before (link.sign :: tokens)) =
      .ok (.again (withLink lhs link)) s' := by
  obtain ⟨op, hfound, hhead, hprecedence, hcolon, hextended⟩ :=
    exists_trailing_of_sign link.compares
  have hnext : op.precedence.next = 291 := by
    rw [hprecedence]
    rfl
  rw [trailing_extended rfl hfound hcolon (by rwa [hprecedence]), hextended]
  refine map_ok _ ?_
  unfold comparison
  rw [advance_bind, hnext, bind_ok _ h, hhead]
  rfl

/-- A further comparison ends the operand before it. -/
theorem stops_linkTokens (s : State) (links : List Link) :
    OperatorTable.standard.Stops 291 (s.before (linkTokens links)).current.kind := by
  cases links with
  | nil => exact stops_endOfInput 291
  | cons link links => exact stops_sign link.compares

/-- The turns over the links, one after the other, up to the end. -/
theorem eventually_iterate_links (links : List Link) (lhs : Expr) (s : State)
    (hs : s.failures = []) :
    ∀ᶠ room in atTop,
      iterate (trailing .standard (Forgetful.expression .standard room) 0) lhs
          (s.before (linkTokens links)) =
        .ok (links.foldl withLink lhs) (s.before []) := by
  have hturn (lhs : Expr) (link : Link) (links : List Link) : ∀ᶠ room in atTop,
      trailing .standard (Forgetful.expression .standard room) 0 lhs
          (s.before (link.sign :: link.operand.tokens ++ (linkTokens links ++ []))) =
        .ok (.again (withLink lhs link)) (s.before (linkTokens links ++ [])) := by
    -- the operand ends before the next comparison
    rw [List.append_nil]
    filter_upwards [link.operand.eventually_read hs (by decide) (stops_linkTokens s links)] with
      room hoperand
    exact trailing_link link (by decide) hoperand
  filter_upwards [eventually_iterate_foldl (fun link : Link => link.sign :: link.operand.tokens)
    hturn (fun _ => List.cons_ne_nil _ _) links lhs] with room hlinks
  rw [List.append_nil] at hlinks
  exact hlinks.trans (iterate_of_stops (stops_endOfInput 0))

/-- A chain of comparisons is read as the comparison of all its operands, if it has just one, and
    else as an inequality over the operands and the comparisons between them, however it changes
    from one comparison to another. Every operand is in its place as it is by itself. -/
theorem exists_readTokens_comparisons (first : Operand) (links : List Link) {ending : List Token}
    (hending : ∀ t ∈ ending.head?, t.kind = .endOfInput) :
    ∃ e, e.eraseLocations = (chainTree first.tree (treeLinks links)).eraseLocations ∧
      ∀ᶠ limit in atTop,
        readTokens ⟨.standard, limit⟩ (first.tokens ++ linkTokens links ++ ending) =
          .ok (some e) := by
  refine ⟨_, Expr.eraseLocations_eq_of_like (foldl_extend_like first links), ?_⟩
  -- no sign of comparison ends the input
  have hend : ∀ t ∈ first.tokens ++ linkTokens links, t.kind ≠ .endOfInput := by
    have hsigns : ∀ sign ∈ signs, sign.1 ≠ .endOfInput := by decide
    intro t ht
    simp only [linkTokens, List.mem_append, List.mem_flatMap, List.mem_cons] at ht
    obtain ht | ⟨link, -, rfl | ht⟩ := ht
    · exact first.endFree t ht
    · exact hsigns _ link.compares
    · exact link.operand.endFree t ht
  have hne : first.tokens ++ linkTokens links ≠ [] := by simp [first.shape.ne_nil]
  refine eventually_readTokens hend hne hending (eventually_expression ?_)
  generalize hs : State.ofTokens (first.tokens ++ linkTokens links ++ ending) = s
  have hfailures : s.failures = [] := by
    rw [← hs]
    rfl
  filter_upwards [first.reads s (linkTokens links) 0 hfailures (by decide),
    eventually_iterate_links links first.tree s hfailures] with room hfirst hlinks
  rw [hfirst, hlinks]

/-- The operand `a`. -/
def symbolOperand : Operand where
  tokens := [⟨.symbol, "a", .zero⟩]
  tree := .symbol "a" .zero
  limit := 1
  shape := .atom rfl
  endFree := by decide
  accepted := by decide +kernel

/-- The comparison `(a < a)` in parentheses. -/
def groupOperand : Operand where
  tokens := [⟨.leftParen, "(", .zero⟩, ⟨.symbol, "a", .zero⟩, ⟨.less, "<", .zero⟩,
    ⟨.symbol, "a", .zero⟩, ⟨.rightParen, ")", .zero⟩]
  tree := .node (.symbol "Less" .zero) [.symbol "a" .zero, .symbol "a" .zero] true .zero
  limit := 3
  shape := @OperandTokens.group _ _
    [⟨.symbol, "a", .zero⟩, ⟨.less, "<", .zero⟩, ⟨.symbol, "a", .zero⟩]
    rfl rfl (.plain rfl (.plain rfl (.plain rfl .nil)))
  endFree := by decide
  accepted := by decide +kernel

/-- The call `Inequality[a]`. -/
def callOperand : Operand where
  tokens := [⟨.symbol, "Inequality", .zero⟩, ⟨.leftBracket, "[", .zero⟩, ⟨.symbol, "a", .zero⟩,
    ⟨.rightBracket, "]", .zero⟩]
  tree := .node (.symbol "Inequality" .zero) [.symbol "a" .zero] true .zero
  limit := 2
  shape := @OperandTokens.call [⟨.symbol, "Inequality", .zero⟩] _ _ [⟨.symbol, "a", .zero⟩]
    (.atom rfl) rfl rfl (.plain rfl .nil) (by decide)
  endFree := by decide
  accepted := by decide +kernel

/-- The links of `(a < a) < Inequality[a] < a == a`, after the first operand. -/
def mixedLinks : List Link :=
  [⟨⟨.less, "<", .zero⟩, "Less", callOperand, by decide⟩,
    ⟨⟨.less, "<", .zero⟩, "Less", symbolOperand, by decide⟩,
    ⟨⟨.equal, "==", .zero⟩, "Equal", symbolOperand, by decide⟩]

theorem exists_readTokens_mixedChain :
    (∀ t ∈ ([] : List Token).head?, t.kind = .endOfInput) ∧
      chainTree groupOperand.tree (treeLinks mixedLinks) =
        .node (.symbol "Inequality" .zero)
          [groupOperand.tree, .symbol "Less" .zero, callOperand.tree, .symbol "Less" .zero,
            .symbol "a" .zero, .symbol "Equal" .zero, .symbol "a" .zero] false .zero ∧
      ∃ e, e.eraseLocations = (chainTree groupOperand.tree (treeLinks mixedLinks)).eraseLocations ∧
        ∀ᶠ limit in atTop, readTokens ⟨.standard, limit⟩
          (groupOperand.tokens ++ linkTokens mixedLinks ++ []) = .ok (some e) :=
  ⟨by decide, by decide, exists_readTokens_comparisons groupOperand mixedLinks (by decide)⟩

end Symbolic.Comparisons
