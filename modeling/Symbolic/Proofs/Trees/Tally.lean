import Mathlib.Algebra.GroupWithZero.Nat
import Symbolic.Proofs.Trees.Atom
import Symbolic.Proofs.Trees.Reading

/-!
# Weighing the texts of a tree

Rules reorder their operands, splice the children of nodes into other nodes, and rebuild chains of
comparisons. If the names that they put in by themselves weigh nothing, none of this changes how
much the symbols and strings of a tree weigh together, so a tree weighs as much as the atoms that it
is built from.

## Key results

- `tally_make`, `tally_compare`, `tally_negate`: rules keep all weights
- `tally_atom`: what an atom weighs is read off the text of its token
- `Built.tally_eq`, `Element.tally_eq`: a tree weighs as much as its atoms
- `tally_of_readTokens`: the same for whole inputs
-/

namespace Symbolic

/-- How much a text weighs as the name of a symbol, and as the value of a string. -/
structure Weighing where
  symbol : String → Nat
  string : String → Nat

namespace Weighing

variable (w : Weighing) (table : OperatorTable)

/-- The names that a reader puts into trees by itself weigh nothing. -/
structure Ignores : Prop where
  heads : ∀ name ∈ table.heads, w.symbol name = 0
  ruleNames : ∀ name ∈ ruleNames, w.symbol name = 0
  comparisonHeads : ∀ name ∈ comparisonHeads, w.symbol name = 0
  atomHeads : ∀ name ∈ Expr.atomHeads, w.symbol name = 0

end Weighing

namespace Expr

mutual

/-- How much the symbols and strings of the tree weigh together, heads included. -/
def tally (w : Weighing) : Expr → Nat
  | .symbol name _ => w.symbol name
  | .number _ _ => 0
  | .string value _ => w.string value
  | .node head children _ _ => head.tally w + tallyAll w children

/-- How much those of all the trees weigh. -/
def tallyAll (w : Weighing) : List Expr → Nat
  | [] => 0
  | e :: es => e.tally w + tallyAll w es

end

variable {w : Weighing} {table : OperatorTable} {e lhs rhs : Expr} {es : List Expr}
  {loc : Location}

/-- An integer has no texts that are weighed. -/
@[simp] theorem tally_integer (n : Int) : (integer n loc).tally w = 0 := by
  simp [integer, tally]

/-- A location weighs nothing. -/
theorem tally_withLoc (e : Expr) (loc : Location) : (e.withLoc loc).tally w = e.tally w := by
  cases e <;> rfl

/-- Parentheses weigh nothing. -/
theorem tally_parenthesize (e : Expr) : e.parenthesize.tally w = e.tally w := by
  cases e <;> rfl

/-- The weights of two lists add up. -/
theorem tallyAll_append (es es' : List Expr) :
    tallyAll w (es ++ es') = tallyAll w es + tallyAll w es' := by
  induction es with
  | nil => simp [tallyAll]
  | cons e es ih => simp only [List.cons_append, tallyAll, ih, Nat.add_assoc]

/-! ## Nodes that rules make -/

/-- A node whose head weighs nothing weighs what its children weigh. -/
theorem tally_node_of_eq_zero {head : String} {headLoc : Location} {parenthesized : Bool}
    (h : w.symbol head = 0) :
    (node (.symbol head headLoc) es parenthesized loc).tally w = tallyAll w es := by
  rw [tally, tally, h, Nat.zero_add]

/-- Of an argument that is spliced only the head gets lost. -/
theorem tallyAll_contribution {head : String} (h : w.symbol head = 0) (e : Expr) :
    tallyAll w (contribution head e) = e.tally w := by
  unfold contribution
  split
  · -- the children of an open node stand in its place
    rename_i hopen
    simp only [isOpenNode, Bool.and_eq_true, beq_iff_eq] at hopen
    cases e with
    | node inner children parenthesized loc =>
      cases inner with
      | symbol name nameLoc =>
        obtain rfl : name = head := Option.some.inj hopen.1
        rw [tally_node_of_eq_zero h]
        rfl
      | _ => cases hopen.1
    | _ => cases hopen.1
  · simp [tallyAll]

/-- A node that a rule makes weighs what its arguments weigh. -/
theorem tally_make {head : String} (h : w.symbol head = 0) (args : List Expr) (loc : Location) :
    (make table head args loc).tally w = tallyAll w args := by
  unfold make arguments
  rw [tally_node_of_eq_zero h]
  split
  · induction args with
    | nil => rfl
    | cons e es ih =>
      rw [List.flatMap_cons, tallyAll_append, tallyAll_contribution h, ih, tallyAll]
  · rfl

/-- The negative of a tree weighs what the tree weighs. -/
theorem tally_negate {head : String} (h : w.symbol head = 0) (operand : Expr)
    (sign loc : Location) : (negate table head operand sign loc).tally w = operand.tally w := by
  have hmake : (make table head [integer (-1) sign, operand] loc).tally w = operand.tally w := by
    simp [tally_make h, tallyAll]
  unfold negate
  split
  · split
    · exact hmake
    · rfl
  · exact hmake

/-- The heads that a chain of comparisons repeats between its operands do not count. -/
theorem tallyAll_intersperse {name : String} (h : w.symbol name = 0) (nameLoc : Location)
    (es : List Expr) : tallyAll w (es.intersperse (.symbol name nameLoc)) = tallyAll w es := by
  induction es with
  | nil => rfl
  | cons e es ih =>
    cases es with
    | nil => rfl
    | cons e' es =>
      rw [List.intersperse_cons_cons, tallyAll, tallyAll, tally, h, ih, Nat.zero_add]
      rfl

/-- A comparison weighs what its two sides weigh. -/
theorem tally_compare (hcomparison : ∀ name ∈ comparisonHeads, w.symbol name = 0) {op : String}
    (hop : w.symbol op = 0) (lhs : Expr) (sign : Location) (rhs : Expr) (loc : Location) :
    (compare table lhs op sign rhs loc).tally w = lhs.tally w + rhs.tally w := by
  have hmake : (make table op [lhs, rhs] loc).tally w = lhs.tally w + rhs.tally w := by
    simp [tally_make hop, tallyAll]
  have hinequality : w.symbol "Inequality" = 0 := hcomparison _ (by decide)
  have hlast : tallyAll w [.symbol op sign, rhs] = rhs.tally w := by
    simp [tallyAll, tally, hop]
  unfold compare
  split
  · rename_i head headLoc children lhsLoc
    split
    · -- the chain is an inequality already
      rename_i hhead
      obtain rfl := hhead
      rw [tally_node_of_eq_zero hinequality, tally_node_of_eq_zero hinequality, tallyAll_append,
        hlast]
    · split
      · -- it becomes one, with the head of the first comparison between the operands
        rename_i hmixed
        have hhead : w.symbol head = 0 := hcomparison _ (mem_comparisonHeads hmixed.2)
        rw [tally_make hinequality, tally_node_of_eq_zero hhead, tallyAll_append,
          tallyAll_intersperse hhead, hlast]
      · exact hmake
  · exact hmake

/-- Factors side by side weigh what each of them weighs. -/
theorem tally_of_juxtaposed? (htimes : w.symbol "Times" = 0) (h : juxtaposed? es = some e) :
    e.tally w = tallyAll w es := by
  unfold juxtaposed? at h
  split at h
  · cases h
  · cases h
    simp [tallyAll]
  · cases h
    exact tally_node_of_eq_zero htimes

/-! ## Atoms -/

/-- The names in the text of a blank: what stands before its underscores, and its head. -/
def blankNames (text : List Char) : List String :=
  let parts :=
    match optionalName? text with
    | some name => [name]
    | none => [(blankParts text).1, (blankParts text).2.2]
  (parts.filter fun part => !part.isEmpty).map .ofList

end Expr

namespace Token

/-- The name in the text of a slot, if it has one. -/
def slotName (t : Token) : List Char :=
  let rest := Expr.textAfter 1 t
  if rest.all Char.isDigit then [] else rest

/-- How much the atom of a token weighs, apart from the heads of its nodes. -/
def weight (w : Weighing) (t : Token) : Nat :=
  match t.kind with
  | .symbol => w.symbol (Expr.canonicalName t.text)
  | .string | .filename => w.string t.text
  | .slot => if t.slotName.isEmpty then 0 else w.string (.ofList t.slotName)
  | .blank => ((Expr.blankNames t.text.toList).map w.symbol).sum
  | _ => 0

/-- A token that is no atom weighs nothing. -/
theorem weight_of_not_isAtom {w : Weighing} {t : Token} (h : t.kind.isAtom = false) :
    t.weight w = 0 := by
  unfold weight
  split
  -- these kinds are atoms
  any_goals
    rename_i hkind
    rw [hkind] at h
    cases h
  rfl

end Token

namespace Expr

section Atoms

variable {w : Weighing} {table : OperatorTable} {e : Expr} {loc : Location} {t : Token}

/-- A number weighs nothing. -/
theorem tally_of_literal {digits : List Char} (h : literal digits loc = .ok e) :
    e.tally w = 0 := by
  unfold literal at h
  split at h
  · cases h
    rfl
  · cases h

variable (hheads : ∀ name ∈ atomHeads, w.symbol name = 0)
include hheads

/-- A slot weighs what its name weighs, if it has one. -/
theorem tally_slot (h : slot table t = .ok e) :
    e.tally w = if t.slotName.isEmpty then 0 else w.string (.ofList t.slotName) := by
  simp only [slot] at h
  unfold Token.slotName
  dsimp only
  split at h
  · -- a slot without a number is the first one
    rename_i hempty
    cases h
    rw [tally_make (hheads _ (by decide)), List.isEmpty_iff.mp hempty]
    simp [tallyAll]
  rename_i hempty
  split at h
  · rename_i hdigits
    rw [if_pos hdigits]
    cases hliteral : literal (textAfter 1 t) t.loc with
    | error error =>
      rw [hliteral] at h
      cases h
    | ok arg =>
      rw [hliteral] at h
      cases h
      rw [tally_make (hheads _ (by decide))]
      simp [tallyAll, tally_of_literal hliteral]
  · rename_i hdigits
    rw [if_neg hdigits, if_neg hempty]
    cases h
    rw [tally_make (hheads _ (by decide))]
    simp [tallyAll, tally]

/-- A sequence of slots weighs nothing. -/
theorem tally_slotSequence (h : slotSequence table t = .ok e) : e.tally w = 0 := by
  obtain ⟨arg, rfl, harg⟩ := eq_of_slotSequence h
  rw [tally_make (hheads _ (by decide))]
  rcases harg with rfl | hliteral
  · simp [tallyAll]
  · simp [tallyAll, tally_of_literal hliteral]

/-- A reference to an output weighs nothing. -/
theorem tally_out (h : out table t = .ok e) : e.tally w = 0 := by
  obtain ⟨args, rfl, hargs⟩ := eq_of_out h
  rw [tally_make (hheads _ (by decide))]
  rcases hargs with rfl | ⟨n, rfl⟩ | ⟨-, arg, rfl, hliteral⟩
  · rfl
  · simp [tallyAll]
  · simp [tallyAll, tally_of_literal hliteral]

/-- A pattern weighs what its name and its head weigh. -/
theorem tally_placeholder (name head : List Char) (marks : Nat) :
    (placeholder table name head marks loc).tally w =
      ((([name, head].filter fun part => !part.isEmpty).map String.ofList).map w.symbol).sum := by
  have hblank := hheads _ (blankHead_mem_atomHeads marks)
  have hpattern : w.symbol "Pattern" = 0 := hheads _ (by decide)
  unfold placeholder namedPattern
  cases name <;> cases head <;> simp [tally_make, hblank, hpattern, tallyAll, tally]

/-- A blank weighs what the names in its text weigh. -/
theorem tally_blank (h : blank table t = .ok e) :
    e.tally w = ((blankNames t.text.toList).map w.symbol).sum := by
  unfold blankNames
  rcases eq_of_blank h with ⟨name, hname, rfl⟩ | ⟨hname, rfl⟩
  · rw [hname, tally_make (hheads _ (by decide)), tallyAll, tally_placeholder hheads]
    cases name <;> simp [tallyAll]
  · rw [hname]
    exact tally_placeholder hheads _ _ _

/-- An atom weighs what its token weighs. -/
theorem tally_atom (h : atom table t = .ok e) : e.tally w = t.weight w := by
  unfold atom at h
  unfold Token.weight
  split at h
  · rename_i hkind
    rw [hkind]
    exact tally_slot hheads h
  · rename_i hkind
    rw [hkind]
    exact tally_slotSequence hheads h
  · rename_i hkind
    rw [hkind]
    exact tally_out hheads h
  · rename_i hkind
    rw [hkind]
    exact tally_blank hheads h
  · -- the plain atoms: a symbol, a number, a string and a file name
    unfold leaf at h
    split at h
    · rename_i hkind
      cases h
      rw [hkind]
      rfl
    · rename_i hkind
      rw [hkind]
      exact tally_of_literal h
    · rename_i hkind
      cases h
      rw [hkind]
      rfl
    · rename_i hkind
      cases h
      rw [hkind]
      rfl
    · cases h

end Atoms

end Expr

/-! ## Trees that are built -/

section Built

open Symbolic.Expr

variable {w : Weighing} {table : OperatorTable} {beside : Expr → Prop}

/-- A token weighs as much as the tag of a message, where it can be one, as it does elsewhere. -/
def Token.WeighsAlike (w : Weighing) (t : Token) : Prop :=
  t.kind = .symbol → w.string t.text = w.symbol (canonicalName t.text)

mutual

/-- A tree that is built weighs what its tokens weigh. -/
theorem Built.tally_eq (hown : w.Ignores table) :
    ∀ {e : Expr} {atoms : List Token}, Built table beside e atoms →
      (∀ t ∈ atoms, t.WeighsAlike w) → e.tally w = (atoms.map (Token.weight w)).sum
  | _, _, .atom _ value, _ => by
    -- by induction on how the tree was built: each node weighs what its operands weigh together
    rw [tally_atom hown.atomHeads value, List.map_singleton, List.sum_singleton]
  | _, _, @Built.tag _ _ t kind, hatoms => by
    rw [List.map_singleton, List.sum_singleton]
    rcases kind with hkind | hkind
    · rw [Token.weight, hkind]
      exact hatoms t (List.mem_singleton_self _) hkind
    · rw [Token.weight, hkind]
      rfl
  | _, _, .name known, _ => hown.ruleNames _ known
  | _, _, .integer, _ => tally_integer _
  | _, _, .make known args, hatoms => by
    rw [tally_make (hown.heads _ known)]
    exact args.tallyAll_eq hown hatoms
  | _, _, .sequence known elements, hatoms => by
    rw [tally_make (hown.heads _ (OperatorTable.mem_heads_of_mem_sequenceHeads known))]
    exact elements.tallyAll_eq hown hatoms
  | _, _, .apply head elements, hatoms => by
    obtain ⟨hhead, helements⟩ := List.forall_mem_append.mp hatoms
    rw [List.map_append, List.sum_append, ← head.tally_eq hown hhead,
      ← elements.tallyAll_eq hown helements]
    rfl
  | _, _, .negate known built, hatoms => by
    rw [tally_negate (hown.heads _ known)]
    exact built.tally_eq hown hatoms
  | _, _, .compare known lhs rhs, hatoms => by
    obtain ⟨hlhs, hrhs⟩ := List.forall_mem_append.mp hatoms
    rw [tally_compare hown.comparisonHeads (hown.heads _ known), List.map_append, List.sum_append,
      ← lhs.tally_eq hown hlhs, ← rhs.tally_eq hown hrhs]
  | _, _, .withLoc built, hatoms => by
    rw [tally_withLoc]
    exact built.tally_eq hown hatoms
  | _, _, .parenthesize built, hatoms => by
    rw [tally_parenthesize]
    exact built.tally_eq hown hatoms
  | _, _, .perm built perm, hatoms => by
    -- rules may reorder their operands, which no sum depends on
    rw [← (perm.map _).sum_nat]
    exact built.tally_eq hown fun t ht => hatoms t (perm.mem_iff.mp ht)

/-- The same of arguments. -/
theorem BuiltAll.tallyAll_eq (hown : w.Ignores table) :
    ∀ {es : List Expr} {atoms : List Token}, BuiltAll table beside es atoms →
      (∀ t ∈ atoms, t.WeighsAlike w) → tallyAll w es = (atoms.map (Token.weight w)).sum
  | _, _, .nil, _ => rfl
  | _, _, .cons first after, hatoms => by
    obtain ⟨hfirst, hafter⟩ := List.forall_mem_append.mp hatoms
    rw [List.map_append, List.sum_append, ← first.tally_eq hown hfirst,
      ← after.tallyAll_eq hown hafter]
    rfl

/-- The same of an element of a sequence, which may be left out. -/
theorem Element.tally_eq (hown : w.Ignores table) :
    ∀ {e : Expr} {atoms : List Token}, Element table beside e atoms →
      (∀ t ∈ atoms, t.WeighsAlike w) → e.tally w = (atoms.map (Token.weight w)).sum
  | _, _, .omitted, _ => hown.ruleNames _ (by decide)
  | _, _, .product factors _ product, hatoms => by
    have htimes : "Times" ∈ table.heads := List.mem_append_right _ (by decide)
    rw [tally_of_juxtaposed? (hown.heads _ htimes) product]
    exact factors.tallyAll_eq hown hatoms

/-- The same of all elements. -/
theorem Elements.tallyAll_eq (hown : w.Ignores table) :
    ∀ {es : List Expr} {atoms : List Token}, Elements table beside es atoms →
      (∀ t ∈ atoms, t.WeighsAlike w) → tallyAll w es = (atoms.map (Token.weight w)).sum
  | _, _, .nil, _ => rfl
  | _, _, .cons first after, hatoms => by
    obtain ⟨hfirst, hafter⟩ := List.forall_mem_append.mp hatoms
    rw [List.map_append, List.sum_append, ← first.tally_eq hown hfirst,
      ← after.tallyAll_eq hown hafter]
    rfl

end

/-- What is no atom weighs nothing. -/
theorem sum_weight_filter (w : Weighing) (tokens : List Token) :
    ((tokens.filter (·.kind.isAtom)).map (Token.weight w)).sum =
      (tokens.map (Token.weight w)).sum := by
  induction tokens with
  | nil => rfl
  | cons t tokens ih =>
    by_cases hkind : t.kind.isAtom = true
    · rw [List.filter_cons_of_pos (by exact hkind), List.map_cons, List.sum_cons, ih, List.map_cons,
        List.sum_cons]
    · rw [List.filter_cons_of_neg (by exact hkind), ih, List.map_cons, List.sum_cons,
        Token.weight_of_not_isAtom (Bool.eq_false_iff.mpr hkind), Nat.zero_add]

/-- The tree of an input weighs as much as the tokens before the end of the input, for each table
    that gives no meaning to atoms as operators. -/
theorem tally_of_readTokens {limit : Nat} {tokens : List Token} {e : Expr}
    (hatoms : ∀ op ∈ table.operators, op.kind.isAtom = false) (hown : w.Ignores table)
    (halike : ∀ t ∈ tokens, t.WeighsAlike w)
    (hread : readTokens ⟨table, limit⟩ tokens = .ok (some e)) :
    e.tally w = ((tokens.takeWhile (·.kind != .endOfInput)).map (Token.weight w)).sum := by
  have helement : Element table (fun _ => True) e _ :=
    Reader.element_of_readTokens hatoms (fun _ _ => trivial) hread
  rw [helement.tally_eq hown fun t ht => halike t
    ((List.takeWhile_sublist _).subset (List.mem_filter.mp ht).1), sum_weight_filter]

end Built

end Symbolic
