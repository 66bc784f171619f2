import Symbolic.Proofs.Trees.Atom
import Symbolic.Proofs.Trees.Reading
import Symbolic.Proofs.Trees.SideBySide

/-!
# The normal form of flat nodes

A node with a flat head takes up the children of open nodes with the same head. What a reader makes
by a rule is therefore flat, with two exceptions that keep their arguments as they are: the
application of a head that the input itself names, and the product of expressions left over side
by side, which are spans but for the last. Each mention of a flat head accounts for at most one
node that is not flat.

## Key results

- `weight_make`, `weight_compare`, `weight_negate`: no rule adds to the nodes that are not flat
- `Built.weight_le`: a tree has no more such nodes than there are mentions
- `clashes_le_of_readTokens`: the same for whole inputs
-/

namespace Symbolic

/-- Whether the token is a symbol of the name. -/
def Token.mentions (name : String) (t : Token) : Bool :=
  t.kind == .symbol && t.text == name

namespace Expr

/-! ## Nodes that are not flat -/

/-- Whether the expression is a node with the named head that has an open child of that head. -/
def isUnflattened (h : String) (e : Expr) : Bool :=
  e.headName? == some h && e.children.any (isOpenNode h)

/-- Whether the expression is a product of spans and a last factor. -/
def isLeftOver (e : Expr) : Bool :=
  e.headName? == some "Times" && !e.children.dropLast.isEmpty
    && e.children.dropLast.all (isOpenNode "Span")

mutual

/-- How many nodes with the named head in the tree have an open child of that head, apart from the
    last factor of a product of spans. -/
def clashes (h : String) : Expr → Nat
  | .node head children parenthesized loc =>
    let e := Expr.node head children parenthesized loc
    (e.isUnflattened h && !e.isLeftOver).toNat + head.clashes h + clashesAll h children
  | _ => 0

/-- How many such nodes there are in the trees. -/
def clashesAll (h : String) : List Expr → Nat
  | [] => 0
  | e :: es => e.clashes h + clashesAll h es

end

/-- How many such nodes there can be once the tree is an operand: a symbol can become the head of
    one, and even a product of spans has to be flat. -/
def weight (h : String) : Expr → Nat
  | .symbol name _ => if name = h then 1 else 0
  | .node head children parenthesized loc =>
    ((Expr.node head children parenthesized loc).isUnflattened h).toNat + head.clashes h
      + clashesAll h children
  | _ => 0

/-- The weight of all operands. -/
def weightAll (h : String) : List Expr → Nat
  | [] => 0
  | e :: es => e.weight h + weightAll h es

variable {h : String} {e lhs rhs : Expr} {es es' : List Expr} {loc sign : Location}

/-- No trees weigh nothing. -/
@[simp] theorem weightAll_nil : weightAll h [] = 0 := rfl

/-- Trees weigh what the first and the others weigh. -/
@[simp] theorem weightAll_cons : weightAll h (e :: es) = e.weight h + weightAll h es := rfl

/-- The clashes of two lists add up. -/
theorem clashesAll_append (es es' : List Expr) :
    clashesAll h (es ++ es') = clashesAll h es + clashesAll h es' := by
  induction es with
  | nil => simp [clashesAll]
  | cons e es ih => simp only [List.cons_append, clashesAll, ih, Nat.add_assoc]

/-- A tree weighs at least its clashes. -/
theorem clashes_le_weight (h : String) (e : Expr) : e.clashes h ≤ e.weight h := by
  cases e with
  | node head children parenthesized loc =>
    simp only [clashes, weight]
    cases isUnflattened h _ <;> cases isLeftOver _ <;> simp
  | _ => simp [clashes]

/-- So do all trees of a list. -/
theorem clashesAll_le_weightAll (h : String) (es : List Expr) :
    clashesAll h es ≤ weightAll h es := by
  induction es with
  | nil => simp [clashesAll]
  | cons e es ih =>
    have := clashes_le_weight h e
    simp only [clashesAll, weightAll_cons]
    omega

/-- A location weighs nothing. -/
theorem weight_withLoc (e : Expr) (loc : Location) : (e.withLoc loc).weight h = e.weight h := by
  cases e <;> rfl

/-- Parentheses weigh nothing. -/
theorem weight_parenthesize (e : Expr) : e.parenthesize.weight h = e.weight h := by
  cases e <;> rfl

/-! ## Nodes that rules make -/

/-- A node with another head is flat itself. -/
theorem weight_node_of_ne {head : String} {headLoc : Location} {parenthesized : Bool}
    (hne : head ≠ h) :
    (Expr.node (.symbol head headLoc) es parenthesized loc).weight h = clashesAll h es := by
  simp [weight, isUnflattened, headName?, symbolName?, clashes, hne]

/-- What an argument contributes holds no more than the argument, and an open node among it comes
    from a node that is not flat. -/
theorem clashesAll_contribution (h head : String) (e : Expr) :
    clashesAll h (contribution head e) ≤ e.weight h ∧
      clashesAll h (contribution h e) + ((contribution h e).any (isOpenNode h)).toNat ≤
        e.weight h := by
  have hclashes := clashes_le_weight h e
  unfold contribution
  refine ⟨?_, ?_⟩
  · split
    · cases e <;> simp [children, clashesAll, weight]
    · simpa [clashesAll] using hclashes
  · split
    · rename_i hopen
      -- an open node gives up its children, and weighs one more than they do
      simp only [isOpenNode, Bool.and_eq_true, beq_iff_eq] at hopen
      cases e with
      | node head children parenthesized loc =>
        simp only [weight, isUnflattened, hopen.1, Expr.children, beq_self_eq_true, Bool.true_and]
        omega
      | _ => cases hopen.1
    · rename_i hopen
      simpa [clashesAll, hopen] using hclashes

/-- What arguments contribute to a node clashes no more often than they weigh, an open node left
    among it included. -/
theorem clashesAll_flatMap_contribution (h head : String) (args : List Expr) :
    clashesAll h (args.flatMap (contribution head)) ≤ weightAll h args ∧
      clashesAll h (args.flatMap (contribution h)) +
        ((args.flatMap (contribution h)).any (isOpenNode h)).toNat ≤ weightAll h args := by
  induction args with
  | nil => simp [clashesAll]
  | cons e es ih =>
    obtain ⟨hone, hone'⟩ := clashesAll_contribution h head e
    simp only [List.flatMap_cons, clashesAll_append, weightAll_cons, List.any_append]
    refine ⟨by omega, ?_⟩
    -- an open node stems from the first argument or from another
    have hany : ∀ a b : Bool, (a || b).toNat ≤ a.toNat + b.toNat := by
      decide
    have := hany ((contribution h e).any (isOpenNode h))
      ((es.flatMap (contribution h)).any (isOpenNode h))
    omega

section Flat

variable {table : OperatorTable} (hflat : table.isFlat h = true)
include hflat

/-- Making a node adds nothing. -/
theorem weight_make (head : String) (args : List Expr) (loc : Location) :
    (make table head args loc).weight h ≤ weightAll h args := by
  obtain ⟨hother, hsame⟩ := clashesAll_flatMap_contribution h head args
  unfold make arguments
  -- under its own head the arguments are spliced, under another one they are only counted
  by_cases hhead : head = h
  · subst hhead
    simp only [hflat, if_true, weight, isUnflattened, headName?, symbolName?, children, clashes,
      beq_self_eq_true, Bool.true_and, Nat.add_zero]
    omega
  · rw [weight_node_of_ne hhead]
    split
    · exact hother
    · exact clashesAll_le_weightAll h args

/-- A node with a head that is not flat keeps its arguments, which need not be operands. -/
theorem weight_make_of_not_flat {head : String} (hhead : table.isFlat head = false)
    (args : List Expr) (loc : Location) :
    (make table head args loc).weight h = clashesAll h args := by
  have hne : head ≠ h := by
    rintro rfl
    simp [hhead] at hflat
  unfold make arguments
  rw [weight_node_of_ne hne, hhead]
  rfl

/-- The negative of a tree weighs no more than the tree. -/
theorem weight_negate (head : String) (operand : Expr) (sign loc : Location) :
    (negate table head operand sign loc).weight h ≤ operand.weight h := by
  have hmake := weight_make hflat head [integer (-1) sign, operand] loc
  have hargs : weightAll h [integer (-1) sign, operand] = operand.weight h := by
    simp [integer, weight]
  rw [hargs] at hmake
  unfold negate
  split
  · split
    · exact hmake
    · exact Nat.le_refl _
  · exact hmake

omit hflat in
/-- A symbol between trees adds no clash. -/
theorem clashesAll_intersperse (name : String) (nameLoc : Location) (es : List Expr) :
    clashesAll h (es.intersperse (.symbol name nameLoc)) = clashesAll h es := by
  induction es with
  | nil => rfl
  | cons e es ih =>
    cases es with
    | nil => rfl
    | cons e' es =>
      simp only [List.intersperse_cons_cons, clashesAll, clashes, Nat.zero_add] at ih ⊢
      rw [ih]

/-- Extending a chain of comparisons adds nothing, as an inequality is not flat. -/
theorem weight_compare (hinequality : table.isFlat "Inequality" = false) (lhs : Expr) (op : String)
    (sign : Location) (rhs : Expr) (loc : Location) :
    (compare table lhs op sign rhs loc).weight h ≤ lhs.weight h + rhs.weight h := by
  have hmake := weight_make hflat op [lhs, rhs] loc
  simp only [weightAll_cons, weightAll_nil, Nat.add_zero] at hmake
  have hrhs := clashes_le_weight h rhs
  unfold compare
  split
  · rename_i head headLoc children lhsLoc
    have hchildren : clashesAll h children ≤
        weight h (.node (.symbol head headLoc) children false lhsLoc) := by
      simp [weight]
    -- the left side is a chain already, becomes one, or is compared for the first time
    split
    · rename_i hhead
      have hne : head ≠ h := by
        rintro rfl
        simp [← hhead, hflat] at hinequality
      rw [weight_node_of_ne hne, clashesAll_append]
      simp only [clashesAll, clashes]
      omega
    · split
      · rw [weight_make_of_not_flat hflat hinequality, clashesAll_append, clashesAll_intersperse]
        simp only [clashesAll, clashes]
        omega
      · exact hmake
  · exact hmake

omit hflat in
/-- Applying a tree adds at most the node that a flat head makes of it. -/
theorem weight_apply (h : String) (head : Expr) (items : List Expr) (loc : Location) :
    (apply head items loc).weight h ≤ head.weight h + clashesAll h items := by
  have hweight : (apply head items loc).weight h =
      (isUnflattened h (apply head items loc)).toNat + head.clashes h + clashesAll h items := rfl
  rw [hweight]
  have hhead := clashes_le_weight h head
  by_cases hsymbol : head.symbolName? = some h
  · -- the symbol itself is one mention of the head
    cases head with
    | symbol name nameLoc =>
      obtain rfl : name = h := by simpa [symbolName?] using hsymbol
      have hle := Bool.toNat_le (isUnflattened name (apply (.symbol name nameLoc) items loc))
      simp only [clashes, weight, if_true]
      omega
    | _ => cases hsymbol
  · have hnot : isUnflattened h (apply head items loc) = false := by
      simp [isUnflattened, apply, headName?, hsymbol]
    rw [hnot, Bool.toNat_false]
    omega

end Flat

/-! ## Atoms -/

section Atoms

variable {t : Token} (hflat : OperatorTable.standard.isFlat h = true)
include hflat

/-- A node that an atom makes weighs the clashes of its arguments. -/
theorem weight_atomNode {head : String} (hhead : head ∈ atomHeads) (args : List Expr)
    (loc : Location) : (make .standard head args loc).weight h = clashesAll h args := by
  have hall : ∀ head ∈ atomHeads, OperatorTable.standard.isFlat head = false := by
    decide
  exact weight_make_of_not_flat hflat (hall head hhead) args loc

omit hflat in
/-- A number neither clashes nor weighs anything. -/
theorem clashes_of_literal {text : List Char} (h' : literal text loc = .ok e) :
    e.clashes h = 0 ∧ e.weight h = 0 := by
  unfold literal at h'
  split at h'
  · cases h'
    exact ⟨rfl, rfl⟩
  · cases h'

/-- A slot weighs nothing. -/
theorem weight_slot (h' : slot .standard t = .ok e) : e.weight h = 0 := by
  obtain ⟨arg, rfl, harg⟩ := eq_of_slot h'
  rw [weight_atomNode hflat (by decide)]
  rcases harg with rfl | rfl | ⟨-, hliteral⟩
  · rfl
  · rfl
  · simpa [clashesAll] using (clashes_of_literal hliteral).1

/-- A sequence of slots weighs nothing. -/
theorem weight_slotSequence (h' : slotSequence .standard t = .ok e) : e.weight h = 0 := by
  obtain ⟨arg, rfl, harg⟩ := eq_of_slotSequence h'
  rw [weight_atomNode hflat (by decide)]
  rcases harg with rfl | hliteral
  · rfl
  · simpa [clashesAll] using (clashes_of_literal hliteral).1

/-- A reference to an output weighs nothing. -/
theorem weight_out (h' : out .standard t = .ok e) : e.weight h = 0 := by
  obtain ⟨args, rfl, hargs⟩ := eq_of_out h'
  rw [weight_atomNode hflat (by decide)]
  rcases hargs with rfl | ⟨n, rfl⟩ | ⟨-, arg, rfl, hliteral⟩
  · rfl
  · rfl
  · simpa [clashesAll] using (clashes_of_literal hliteral).1

/-- A pattern of an atom weighs nothing. -/
theorem weight_placeholder (name head : List Char) (marks : Nat) :
    (placeholder .standard name head marks loc).weight h = 0 := by
  have hpattern : ∀ args, (make .standard (blankHead marks) args loc).weight h =
      clashesAll h args :=
    fun args => weight_atomNode hflat (blankHead_mem_atomHeads marks) args loc
  have hargs : clashesAll h (if head.isEmpty then [] else [symbol (.ofList head) loc]) = 0 := by
    split <;> rfl
  unfold placeholder namedPattern
  dsimp only
  split
  · rw [hpattern, hargs]
  · -- a name stands before the blank, which is then an argument of a pattern
    have hle := clashes_le_weight h (make .standard (blankHead marks)
      (if head.isEmpty then [] else [symbol (.ofList head) loc]) loc)
    rw [hpattern, hargs] at hle
    rw [weight_atomNode hflat (by decide)]
    simp only [clashesAll, clashes]
    omega

/-- A blank weighs nothing. -/
theorem weight_blank (h' : blank .standard t = .ok e) : e.weight h = 0 := by
  rcases eq_of_blank h' with ⟨name, -, rfl⟩ | ⟨-, rfl⟩
  · have hle := clashes_le_weight h (placeholder .standard name [] 1 t.loc)
    rw [weight_placeholder hflat] at hle
    rw [weight_atomNode hflat (by decide)]
    simp only [clashesAll]
    omega
  · exact weight_placeholder hflat _ _ _

/-- A leaf weighs one at most, and only if its token mentions the head. -/
theorem weight_leaf_le (h' : leaf t = .ok e) : e.weight h ≤ (t.mentions h).toNat := by
  unfold leaf at h'
  split at h'
  · rename_i hkind
    cases h'
    have hconstant : ∀ name ∈ constantNames, OperatorTable.standard.isFlat name = false := by
      decide
    simp only [weight]
    split
    · -- no flat head is a constant
      rename_i hname
      rcases canonicalName_cases t.text with hsame | hmem
      · simp [Token.mentions, hkind, ← hname, hsame]
      · have hnot := hconstant _ hmem
        rw [hname, hflat] at hnot
        cases hnot
    · exact Nat.zero_le _
  · rw [(clashes_of_literal h').2]
    exact Nat.zero_le _
  · cases h'
    exact Nat.zero_le _
  · cases h'
    exact Nat.zero_le _
  · cases h'

/-- Only a symbol of the very name weighs anything. -/
theorem weight_atom_le (h' : atom .standard t = .ok e) : e.weight h ≤ (t.mentions h).toNat := by
  have hzero : e.weight h = 0 → e.weight h ≤ (t.mentions h).toNat := fun heq => by simp [heq]
  unfold atom at h'
  split at h'
  · exact hzero (weight_slot hflat h')
  · exact hzero (weight_slotSequence hflat h')
  · exact hzero (weight_out hflat h')
  · exact hzero (weight_blank hflat h')
  · exact weight_leaf_le hflat h'

end Atoms

end Expr

/-! ## Trees that are built -/

section Built

open Symbolic.Expr

/-- No head of a node over elements is flat. -/
theorem not_isFlat_of_mem_sequenceHeads {head : String}
    (hhead : head ∈ OperatorTable.standard.sequenceHeads) :
    OperatorTable.standard.isFlat head = false := by
  have hall : ∀ head ∈ OperatorTable.standard.sequenceHeads,
      OperatorTable.standard.isFlat head = false := by
    decide
  exact hall head hhead

variable {h : String}

/-- A symbol that a rule puts in is no flat head. -/
theorem weight_ruleName (hflat : OperatorTable.standard.isFlat h = true) {name : String}
    (hname : name ∈ ruleNames) (loc : Location) : (Expr.symbol name loc).weight h = 0 := by
  have hall : ∀ name ∈ ruleNames, OperatorTable.standard.isFlat name = false := by
    decide
  have hne : name ≠ h := by
    rintro rfl
    simp [hall name hname] at hflat
  simp [weight, hne]

/-- The product of expressions side by side is let off, since all but the last are spans. -/
theorem clashes_le_of_juxtaposed? {factors : List Expr} {e : Expr}
    (hbesides : ∀ factor ∈ factors.dropLast, IsOpenSpan factor)
    (he : juxtaposed? factors = some e) : e.clashes h ≤ weightAll h factors := by
  unfold juxtaposed? at he
  split at he
  · cases he
  · cases he
    simpa using clashes_le_weight h e
  · rename_i first es hne
    cases he
    -- with a second factor there is one before the last
    have hleftOver : ∀ loc, isLeftOver (apply (.symbol "Times" loc) (first :: es) loc) = true := by
      intro loc
      cases es with
      | nil => exact (hne rfl).elim
      | cons second es =>
        simpa [isLeftOver, apply, headName?, symbolName?, children, IsOpenSpan] using hbesides
    have hle := clashesAll_le_weightAll h (first :: es)
    simp only [apply] at hleftOver ⊢
    simp only [clashes, hleftOver]
    simpa using hle

mutual

/-- A tree that is built weighs no more than the tokens that mention the head. -/
theorem Built.weight_le (hflat : OperatorTable.standard.isFlat h = true) :
    ∀ {e : Expr} {atoms : List Token},
    Built .standard IsOpenSpan e atoms → e.weight h ≤ atoms.countP (Token.mentions h)
  | _, _, .atom _ value => by
    -- by induction on how the tree was built: only atoms add to the weight, and only where they
    -- mention the head
    have hle := weight_atom_le hflat value
    rw [List.countP_singleton]
    cases hmentions : Token.mentions h _ <;> simpa [hmentions] using hle
  | _, _, .tag _ => Nat.zero_le _
  | _, _, .name known => Nat.le_of_eq (weight_ruleName hflat known _)
  | _, _, .integer => Nat.zero_le _
  | _, _, .make _ args => Nat.le_trans (weight_make hflat _ _ _) (BuiltAll.weightAll_le hflat args)
  | _, _, .sequence known elements => by
    rw [weight_make_of_not_flat hflat (not_isFlat_of_mem_sequenceHeads known)]
    exact elements.clashesAll_le hflat
  | _, _, .apply head elements => by
    have hhead := head.weight_le hflat
    have helements := elements.clashesAll_le hflat
    refine Nat.le_trans (weight_apply h _ _ _) ?_
    rw [List.countP_append]
    omega
  | _, _, .negate _ built =>
    Nat.le_trans (weight_negate hflat _ _ _ _) (Built.weight_le hflat built)
  | _, _, .compare _ lhs rhs => by
    have hlhs := lhs.weight_le hflat
    have hrhs := rhs.weight_le hflat
    refine Nat.le_trans (weight_compare hflat (by decide) _ _ _ _ _) ?_
    rw [List.countP_append]
    omega
  | _, _, .withLoc built => by
    rw [weight_withLoc]
    exact built.weight_le hflat
  | _, _, .parenthesize built => by
    rw [weight_parenthesize]
    exact built.weight_le hflat
  | _, _, .perm built perm => by
    rw [← perm.countP_eq]
    exact built.weight_le hflat

/-- The same of arguments. -/
theorem BuiltAll.weightAll_le (hflat : OperatorTable.standard.isFlat h = true) :
    ∀ {es : List Expr} {atoms : List Token},
    BuiltAll .standard IsOpenSpan es atoms → weightAll h es ≤ atoms.countP (Token.mentions h)
  | _, _, .nil => Nat.zero_le _
  | _, _, .cons first after => by
    have hfirst := first.weight_le hflat
    have hafter := after.weightAll_le hflat
    rw [weightAll_cons, List.countP_append]
    omega

/-- An element of a sequence clashes no more often than its tokens mention the head. -/
theorem Element.clashes_le (hflat : OperatorTable.standard.isFlat h = true) :
    ∀ {e : Expr} {atoms : List Token},
    Element .standard IsOpenSpan e atoms → e.clashes h ≤ atoms.countP (Token.mentions h)
  | _, _, .omitted => Nat.zero_le _
  | _, _, .product factors besides product =>
    Nat.le_trans (clashes_le_of_juxtaposed? besides product) (BuiltAll.weightAll_le hflat factors)

/-- The same of all elements. -/
theorem Elements.clashesAll_le (hflat : OperatorTable.standard.isFlat h = true) :
    ∀ {es : List Expr} {atoms : List Token},
    Elements .standard IsOpenSpan es atoms → clashesAll h es ≤ atoms.countP (Token.mentions h)
  | _, _, .nil => Nat.zero_le _
  | _, _, .cons first after => by
    have hfirst := first.clashes_le hflat
    have hafter := after.clashesAll_le hflat
    rw [clashesAll, List.countP_append]
    omega

end

end Built

/-! ## Whole inputs -/

/-- In the tree of an input, each symbol of the input that names a flat head accounts for at most
    one node with that head that has an open child with the same head, not counting the last factor
    of a product of spans. -/
theorem clashes_le_of_readTokens {limit : Nat} {tokens : List Token} {e : Expr} {h : String}
    (hflat : OperatorTable.standard.isFlat h = true)
    (hread : readTokens ⟨.standard, limit⟩ tokens = .ok (some e)) :
    e.clashes h ≤ tokens.countP (Token.mentions h) := by
  have hatoms : ∀ op ∈ OperatorTable.standard.operators, op.kind.isAtom = false := by
    decide
  have helement := Reader.element_of_readTokens hatoms Reader.isOpenSpan_of_expression hread
  have hsublist : List.Sublist
      ((tokens.takeWhile (·.kind != .endOfInput)).filter (·.kind.isAtom)) tokens :=
    List.filter_sublist.trans (List.takeWhile_sublist _)
  exact Nat.le_trans (Element.clashes_le hflat helement) hsublist.countP_le

/-- The tokens of `Plus[a + b]`. -/
def appliedSum : List Token :=
  [⟨.symbol, "Plus", .zero⟩, ⟨.leftBracket, "[", .zero⟩, ⟨.symbol, "a", .zero⟩,
    ⟨.plus, "+", .zero⟩, ⟨.symbol, "b", .zero⟩, ⟨.rightBracket, "]", .zero⟩]

/-- The tree of `Plus[a + b]`. -/
def appliedSumTree : Expr :=
  let sum := Expr.node (.symbol "Plus" .zero) [.symbol "a" .zero, .symbol "b" .zero] false .zero
  .node (.symbol "Plus" .zero) [sum] true .zero

/-- In `Plus[a + b]` the head is mentioned once, which is enough for the one clash. -/
theorem clashes_le_appliedSum : OperatorTable.standard.isFlat "Plus" = true ∧
    readTokens {} appliedSum = .ok (some appliedSumTree) ∧
    appliedSumTree.clashes "Plus" ≤ appliedSum.countP (Token.mentions "Plus") := by
  have hflat : OperatorTable.standard.isFlat "Plus" = true := by
    decide
  have hread : readTokens {} appliedSum = .ok (some appliedSumTree) := by
    decide +kernel
  exact ⟨hflat, hread, clashes_le_of_readTokens hflat hread⟩

/-- An application keeps its arguments as they are, even a sum under the head of sums. -/
theorem exists_unflattened_appliedSum : OperatorTable.standard.isFlat "Plus" = true ∧
    ∃ e, readTokens {} appliedSum = .ok (some e) ∧ e.isUnflattened "Plus" = true :=
  ⟨by decide, appliedSumTree, by decide +kernel, by decide⟩

end Symbolic
