import Symbolic.Proofs.Climbing.Split
import Symbolic.Proofs.Reader.Success

/-!
# Chains of infix operators

Operands are symbols and chains in parentheses; between them stand infix operators that have no
rule of their own. The reader climbs from one precedence to the next and never sees a whole chain,
yet it builds the tree that comes from splitting the chain at its weakest operators.

## Key results

- `eventually_iterate_links`: what a reader takes in at a given precedence
- `Operand.readable`, `Chain.readable`: operands of any nesting are read
- `eventually_readTokens_chain`: a chain is read as its tree
-/

namespace Symbolic.Climbing

open Reader Filter

/-! ## Chains -/

/-- A token that the table knows as an infix operator, read by the general rule. -/
structure Connective (table : OperatorTable) where
  token : Token
  op : Operator
  found : table.lookup? token.kind .infixed = some op
  general : token.kind.hasOwnRule = false
  precedence_lt : op.precedence < 65535
  associates : op.associativity ≠ .nonAssociative

mutual

/-- A symbol, or a chain in parentheses. -/
inductive Operand (table : OperatorTable) where
  | symbol (token : Token) (kind : token.kind = .symbol)
  | group (opening : Token) (inside : Chain table) (closing : Token)
    (openingKind : opening.kind = .leftParen) (closingKind : closing.kind = .rightParen)

/-- Operands with operators between them. -/
inductive Chain (table : OperatorTable) where
  | single (operand : Operand table)
  | link (operand : Operand table) (connective : Connective table) (rest : Chain table)

end

variable {table : OperatorTable}

mutual

/-- The tokens of an operand. -/
def Operand.tokens : Operand table → List Token
  | .symbol token _ => [token]
  | .group opening inside closing _ _ => opening :: (inside.tokens ++ [closing])

/-- The tokens of a chain. -/
def Chain.tokens : Chain table → List Token
  | .single operand => operand.tokens
  | .link operand connective rest => operand.tokens ++ connective.token :: rest.tokens

end

mutual

/-- The expression that an operand stands for. -/
def Operand.tree : Operand table → Expr
  | .symbol token _ => .symbol (Expr.canonicalName token.text) token.loc
  | .group opening inside closing _ _ =>
    grouped (opening.loc.union closing.loc) (splitTree table inside.start inside.links)

/-- The expression of the first operand of a chain. -/
def Chain.start : Chain table → Expr
  | .single operand => operand.tree
  | .link operand _ _ => operand.tree

/-- The operators of a chain with the expressions of the operands after them. -/
def Chain.links : Chain table → List Link
  | .single _ => []
  | .link _ connective rest => (connective.op, rest.start) :: rest.links

end

/-- The tree of a chain: it is split at its weakest operator. -/
def Chain.tree (chain : Chain table) : Expr :=
  splitTree table chain.start chain.links

/-! ## Chains as lists -/

/-- The first operand of a chain. -/
def Chain.first : Chain table → Operand table
  | .single operand => operand
  | .link operand _ _ => operand

/-- The operators of a chain with the operands after them. -/
def Chain.tail : Chain table → List (Connective table × Operand table)
  | .single _ => []
  | .link _ connective rest => (connective, rest.first) :: rest.tail

/-- The tokens of operators with the operands after them. -/
def tailTokens (tail : List (Connective table × Operand table)) : List Token :=
  tail.flatMap fun link => link.1.token :: link.2.tokens

/-- The links of operators with the operands after them. -/
def treeLinks (tail : List (Connective table × Operand table)) : List Link :=
  tail.map fun link => (link.1.op, link.2.tree)

/-- A chain starts with the tree of its first operand. -/
theorem Chain.start_eq (chain : Chain table) : chain.start = chain.first.tree := by
  cases chain <;> rw [Chain.start, Chain.first]

/-- Its links are those of its tail. -/
theorem Chain.links_eq : ∀ chain : Chain table, chain.links = treeLinks chain.tail
  | .single _ => by rw [Chain.links, Chain.tail, treeLinks, List.map_nil]
  | .link _ connective rest => by
    rw [Chain.links, Chain.tail, treeLinks, List.map_cons, rest.links_eq, rest.start_eq,
      treeLinks]

/-- Its tokens are those of its first operand and of its tail. -/
theorem Chain.tokens_eq : ∀ chain : Chain table,
    chain.tokens = chain.first.tokens ++ tailTokens chain.tail
  | .single _ => by rw [Chain.tokens, Chain.first, Chain.tail]; simp [tailTokens]
  | .link _ connective rest => by
    rw [Chain.tokens, Chain.first, Chain.tail, rest.tokens_eq]
    simp [tailTokens]

/-! ## Cutting a tail -/

/-- Whether the operator of a link binds at least as tightly as `p`. -/
def reaches (p : Precedence) (link : Connective table × Operand table) : Bool :=
  p ≤ link.1.op.precedence

/-- What reaches a precedence reaches any lower one. -/
theorem reaches_of_le {p q : Precedence} (hpq : p ≤ q) {link : Connective table × Operand table}
    (h : reaches q link = true) : reaches p link = true := by
  simp only [reaches, decide_eq_true_eq] at h ⊢
  exact UInt16.le_trans hpq h

/-- The links that reach a precedence are those that reach a higher one, and more behind them. -/
theorem takeWhile_reaches {p q : Precedence} (hpq : p ≤ q)
    (tail : List (Connective table × Operand table)) :
    tail.takeWhile (reaches p) =
      tail.takeWhile (reaches q) ++ (tail.dropWhile (reaches q)).takeWhile (reaches p) := by
  have hq : ∀ link ∈ tail.takeWhile (reaches q), reaches p link = true :=
    fun link hlink => reaches_of_le hpq (List.mem_takeWhile_imp hlink)
  rw [← List.takeWhile_append_of_pos hq, List.takeWhile_append_dropWhile]

/-- What is left of them is what is left at the lower precedence. -/
theorem dropWhile_reaches {p q : Precedence} (hpq : p ≤ q)
    (tail : List (Connective table × Operand table)) :
    (tail.dropWhile (reaches q)).dropWhile (reaches p) = tail.dropWhile (reaches p) := by
  have hq : ∀ link ∈ tail.takeWhile (reaches q), reaches p link = true :=
    fun link hlink => reaches_of_le hpq (List.mem_takeWhile_imp hlink)
  rw [← List.dropWhile_append_of_pos hq, List.takeWhile_append_dropWhile]

/-- The tree of the links that bind at least as tightly as `p`: the first operator takes those
    that its right operand reaches, and goes on with the others. -/
theorem splitTree_takeWhile {connective : Connective table} {operand : Operand table}
    {p : Precedence} (hp : p ≤ connective.op.precedence) (lhs : Expr)
    (tail : List (Connective table × Operand table)) :
    splitTree table lhs (treeLinks (((connective, operand) :: tail).takeWhile (reaches p))) =
      splitTree table
        (combine table connective.op lhs (splitTree table operand.tree
          (treeLinks (tail.takeWhile (reaches connective.op.rightPrecedence)))))
        (treeLinks ((tail.dropWhile (reaches connective.op.rightPrecedence)).takeWhile
          (reaches p))) := by
  have hle := UInt16.le_trans hp connective.op.precedence_le_rightPrecedence
  rw [List.takeWhile_cons_of_pos (by simpa [reaches] using hp), takeWhile_reaches hle, treeLinks,
    List.map_cons, List.map_append]
  refine splitTree_cons_append connective.precedence_lt ?_ ?_
  · -- what the right operand takes in binds tightly enough
    intro l hl
    obtain ⟨link, hlink, rfl⟩ := List.mem_map.mp hl
    simpa [reaches] using List.mem_takeWhile_imp hlink
  · -- the first link that it leaves does not
    intro l hl
    rw [List.head?_map, Option.mem_map] at hl
    obtain ⟨link, hlink, rfl⟩ := hl
    have hnot := List.head?_dropWhile_not (reaches connective.op.rightPrecedence) tail
    cases hrest : tail.dropWhile (reaches connective.op.rightPrecedence) with
    | nil => simp [hrest] at hlink
    | cons next rest =>
      simp only [hrest, List.head?_cons] at hnot
      rw [hrest, List.takeWhile_cons] at hlink
      split at hlink
      · obtain rfl : next = link := by simpa using hlink
        simpa [reaches] using hnot
      · simp at hlink

/-! ## Reading a chain -/

/-- With enough room the operand is read, whatever follows it. -/
def Readable (operand : Operand table) : Prop :=
  ∀ (s : State) (rest : List Token), ∀ᶠ room in atTop,
    leading table (Forgetful.expression table room) (s.before (operand.tokens ++ rest)) =
      .ok operand.tree (s.before rest)

/-- An operator stops an expression of any higher precedence. -/
theorem Connective.stops (connective : Connective table) {p : Precedence}
    (hp : ¬p ≤ connective.op.precedence) : table.Stops p connective.token.kind :=
  stops_of_infixed connective.found (TokenKind.ne_rawColon_of_general connective.general)
    (UInt16.not_le.mp hp)

/-- At a precedence the reader takes in all links up to the first that binds less tightly, and
    builds the tree of these. -/
theorem eventually_iterate_links {tail : List (Connective table × Operand table)}
    (htail : ∀ link ∈ tail, Readable link.2) (p : Precedence) (lhs : Expr) (s : State)
    {rest : List Token} (hrest : ∀ q, table.Stops q (s.before rest).current.kind) :
    ∀ᶠ room in atTop,
      Parse.iterate (trailing table (Forgetful.expression table room) p) lhs
          (s.before (tailTokens tail ++ rest)) =
        .ok (splitTree table lhs (treeLinks (tail.takeWhile (reaches p))))
          (s.before (tailTokens (tail.dropWhile (reaches p)) ++ rest)) := by
  -- induction on the number of links: the right operand of the first takes in some of the
  -- others, at a higher precedence, and the chain goes on after these
  induction hn : tail.length using Nat.strongRecOn generalizing tail p lhs with
  | _ n ih =>
    subst hn
    cases tail with
    | nil =>
      refine .of_forall fun room => ?_
      rw [List.takeWhile_nil, List.dropWhile_nil, treeLinks, List.map_nil, splitTree_nil]
      exact iterate_of_stops (hrest p)
    | cons link tail =>
      obtain ⟨connective, operand⟩ := link
      by_cases hp : p ≤ connective.op.precedence
      · -- the right operand, as a chain of its own at the precedence to the right
        have hrhs := ih tail.length (by simp) (fun link hlink => htail link (by simp [hlink]))
          connective.op.rightPrecedence operand.tree rfl
        -- the rest of the chain, with the combined operand before it
        have hlinks := ih (tail.dropWhile (reaches connective.op.rightPrecedence)).length
          (Nat.lt_succ_of_le (List.length_dropWhile_le _ _))
          (fun link hlink => htail link (List.mem_cons_of_mem _
            ((List.dropWhile_suffix _).subset hlink))) p
          (combine table connective.op lhs (splitTree table operand.tree
            (treeLinks (tail.takeWhile (reaches connective.op.rightPrecedence))))) rfl
        have hoperand := htail (connective, operand) (by simp) s (tailTokens tail ++ rest)
        have hexpr := eventually_expression
          ((hoperand.and hrhs).mono fun room h => chain_ok h.1 h.2)
        filter_upwards [hexpr, hlinks] with room hexpr hlinks
        have htokens : tailTokens ((connective, operand) :: tail) ++ rest =
            connective.token :: (operand.tokens ++ (tailTokens tail ++ rest)) := by
          simp [tailTokens]
        have hdrop : ((connective, operand) :: tail).dropWhile (reaches p) =
            tail.dropWhile (reaches p) :=
          List.dropWhile_cons_of_pos (by simpa [reaches] using hp)
        have hle := UInt16.le_trans hp connective.op.precedence_le_rightPrecedence
        rw [splitTree_takeWhile hp, hdrop, ← dropWhile_reaches hle, ← hlinks, htokens]
        refine iterate_again (trailing_general rfl connective.found connective.general
          connective.associates hp hexpr) ?_
        have hshorter : (tailTokens (tail.dropWhile
            (reaches connective.op.rightPrecedence))).length ≤ (tailTokens tail).length :=
          length_flatMap_dropWhile_le _ _ tail
        simp only [State.rest_before, List.length_cons, List.length_append]
        omega
      · -- the operator binds less tightly than asked for, and ends the operand
        have hnot : ¬reaches p (connective, operand) = true := by simpa [reaches] using hp
        rw [List.takeWhile_cons_of_neg hnot, List.dropWhile_cons_of_neg hnot, treeLinks,
          List.map_nil, splitTree_nil]
        exact .of_forall fun room => iterate_of_stops (connective.stops hp)

/-- Operands that are read make a chain that is read, up to a token that ends any operand. -/
theorem Chain.eventually_expression {chain : Chain table} (hfirst : Readable chain.first)
    (htail : ∀ link ∈ chain.tail, Readable link.2) (s : State) {rest : List Token}
    (hrest : ∀ q, table.Stops q (s.before rest).current.kind) :
    ∀ᶠ room in atTop,
      Forgetful.expression table room 0 (s.before (chain.tokens ++ rest)) =
        .ok chain.tree (s.before rest) := by
  -- at the lowest precedence nothing is left
  have hall : ∀ link ∈ chain.tail, reaches 0 link = true := by
    intro link _
    simp [reaches]
  have hlinks := eventually_iterate_links htail 0 chain.first.tree s hrest
  rw [List.takeWhile_eq_self_iff.mpr hall, List.dropWhile_eq_nil_iff.mpr hall] at hlinks
  rw [chain.tokens_eq, Chain.tree, chain.start_eq, chain.links_eq, List.append_assoc]
  refine Reader.eventually_expression ?_
  filter_upwards [hfirst s (tailTokens chain.tail ++ rest), hlinks] with room hleading hlinks
  exact chain_ok hleading hlinks

/-! ## Bare tables -/

/-- Symbols, parentheses and the end of the input are no operators. -/
def Bare (table : OperatorTable) : Prop :=
  ∀ kind ∈ [TokenKind.endOfInput, .symbol, .leftParen, .rightParen], ∀ fixity,
    table.lookup? kind fixity = none

/-- The end of the input and a closing parenthesis stop every expression. -/
theorem Bare.stops (h : Bare table) {kind : TokenKind}
    (hkind : kind = .endOfInput ∨ kind = .rightParen) (p : Precedence) : table.Stops p kind := by
  have htrailing : table.trailing? kind = none := by
    have hmem : kind ∈ [TokenKind.endOfInput, .symbol, .leftParen, .rightParen] := by
      rcases hkind with rfl | rfl <;> decide
    simp only [OperatorTable.trailing?, h kind hmem, Option.orElse_eq_orElse, Option.orElse_none]
  have hends : kind.endsOperand = true := by
    rcases hkind with rfl | rfl <;> rfl
  refine ⟨?_, ?_⟩
  · rcases hkind with rfl | rfl <;> decide
  · simp [OperatorTable.grip?, htrailing, hends]

mutual

/-- Every operand is read, by recursion into its parentheses. -/
theorem Operand.readable (h : Bare table) : ∀ operand : Operand table, Readable operand
  | .symbol token kind => by
    intro s rest
    rw [Operand.tokens, List.singleton_append, Operand.tree]
    exact .of_forall fun room => leading_symbol (h .symbol (by decide) .prefixed) ⟨token, kind⟩
  | .group opening inside closing openingKind closingKind => by
    intro s rest
    -- the chain within is read up to the closing parenthesis
    obtain ⟨hfirst, htail⟩ := inside.readable h
    have hrest : ∀ q, table.Stops q
        ((s.within opening.loc).before (closing :: rest)).current.kind :=
      h.stops (.inr closingKind)
    filter_upwards [Chain.eventually_expression hfirst htail _ hrest] with room hinside
    have htokens : (Operand.group opening inside closing openingKind closingKind).tokens ++ rest =
        opening :: (inside.tokens ++ closing :: rest) := by
      simp [Operand.tokens]
    rw [htokens, Operand.tree]
    exact leading_group openingKind (h .leftParen (by decide) .prefixed) hinside closingKind

/-- So is every operand of a chain. -/
theorem Chain.readable (h : Bare table) : ∀ chain : Chain table,
    Readable chain.first ∧ ∀ link ∈ chain.tail, Readable link.2
  | .single operand => ⟨operand.readable h, fun _ hlink => nomatch hlink⟩
  | .link operand _ rest => by
    obtain ⟨hfirst, htail⟩ := rest.readable h
    refine ⟨operand.readable h, fun link hlink => ?_⟩
    rcases List.mem_cons.mp hlink with rfl | hlink
    · exact hfirst
    · exact htail link hlink

end

/-! ## Whole inputs -/

mutual

/-- No token of an operand ends the input. -/
theorem Operand.kind_ne_endOfInput (h : Bare table) : ∀ operand : Operand table,
    ∀ t ∈ operand.tokens, t.kind ≠ .endOfInput
  | .symbol token kind => by
    simp only [Operand.tokens, List.mem_singleton, forall_eq, kind]
    decide
  | .group opening inside closing openingKind closingKind => by
    intro t ht
    simp only [Operand.tokens, List.mem_cons, List.mem_append, List.not_mem_nil,
      or_false] at ht
    rcases ht with rfl | ht | rfl
    · simp [openingKind]
    · exact inside.kind_ne_endOfInput h t ht
    · simp [closingKind]

/-- No token of a chain does. -/
theorem Chain.kind_ne_endOfInput (h : Bare table) : ∀ chain : Chain table,
    ∀ t ∈ chain.tokens, t.kind ≠ .endOfInput
  | .single operand => by
    rw [Chain.tokens]
    exact operand.kind_ne_endOfInput h
  | .link operand connective rest => by
    intro t ht
    simp only [Chain.tokens, List.mem_append, List.mem_cons] at ht
    rcases ht with ht | rfl | ht
    · exact operand.kind_ne_endOfInput h t ht
    · -- the end of the input is no operator of a bare table
      intro hend
      have hfound := connective.found
      rw [hend, h .endOfInput (by decide) .infixed] at hfound
      cases hfound
    · exact rest.kind_ne_endOfInput h t ht

end

/-- A chain has tokens. -/
theorem Chain.tokens_ne_nil (chain : Chain table) : chain.tokens ≠ [] := by
  rw [chain.tokens_eq]
  cases chain.first <;> simp [Operand.tokens]

/-- With enough room for nesting, a chain of operators is read as its tree. -/
theorem eventually_readTokens_chain (h : Bare table) (chain : Chain table)
    {ending : List Token} (hending : ∀ t ∈ ending.head?, t.kind = .endOfInput) :
    ∀ᶠ limit in atTop,
      readTokens ⟨table, limit⟩ (chain.tokens ++ ending) = .ok (some chain.tree) := by
  obtain ⟨hfirst, htail⟩ := chain.readable h
  let s := State.ofTokens (chain.tokens ++ ending)
  have hrest : ∀ q, table.Stops q (s.before []).current.kind := h.stops (.inl rfl)
  have hread := chain.eventually_expression hfirst htail s hrest
  rw [List.append_nil] at hread
  exact eventually_readTokens (chain.kind_ne_endOfInput h) chain.tokens_ne_nil hending hread

/-- Nothing of the standard table follows an operand unasked. -/
theorem bare_standard : Bare .standard := by
  intro kind hkind fixity
  simp only [List.mem_cons, List.not_mem_nil, or_false] at hkind
  rcases hkind with rfl | rfl | rfl | rfl <;> cases fixity <;> rfl

/-- An operator of the standard table, between operands. -/
def standardConnective (op : Operator)
    (found : OperatorTable.standard.lookup? op.kind .infixed = some op)
    (general : op.kind.hasOwnRule = false) (precedence_lt : op.precedence < 65535)
    (associates : op.associativity ≠ .nonAssociative) : Connective .standard :=
  ⟨⟨op.kind, op.kind.spelling, .zero⟩, op, found, general, precedence_lt, associates⟩

/-- The chain `a * b ^ c ^ (d + e)`. -/
def tower : Chain .standard :=
  let symbol name : Operand .standard := .symbol (.unplaced .symbol name) (Token.kind_unplaced ..)
  let times := standardConnective (.infixed .times "Times" 400 .flat) rfl rfl (by decide)
    (by decide)
  let power := standardConnective (.infixed .power "Power" 590 .right) rfl rfl (by decide)
    (by decide)
  let plus := standardConnective (.infixed .plus "Plus" 310 .flat) rfl rfl (by decide) (by decide)
  .link (symbol "a") times (.link (symbol "b") power (.link (symbol "c") power (.single
    (.group (.unplaced .leftParen "(") (.link (symbol "d") plus (.single (symbol "e")))
      (.unplaced .rightParen ")") (Token.kind_unplaced ..) (Token.kind_unplaced ..)))))

/-- A tower of powers is read as its tree. -/
theorem eventually_readTokens_tower :
    Bare .standard ∧ (∀ t ∈ [Token.endOfInput .zero].head?, t.kind = .endOfInput) ∧
      ∀ᶠ limit in atTop, readTokens ⟨.standard, limit⟩ (tower.tokens ++ [.endOfInput .zero]) =
        .ok (some tower.tree) := by
  exact ⟨bare_standard, Token.kind_of_mem_endOfInput,
    eventually_readTokens_chain bare_standard tower Token.kind_of_mem_endOfInput⟩

end Symbolic.Climbing
