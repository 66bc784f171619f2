import Symbolic.Expr.Atom
import Symbolic.Expr.Comparison
import Symbolic.Proofs.Reader.Yields

/-!
# Trees that readers build

A tree is built from atoms by making nodes, applying trees to others, and a few steps more. How
tightly operators bind plays no part in this: what is built is every tree that a reader could
put together from its tokens, and many more. Each atom among the tokens is used just once, and
everything else in the tree is put in by the rules.

## Key results

- `Built`, `Element`: the trees that are built, and the products of such trees side by side
- `Elements.append`, `BuiltAll.elements`: lists of elements
-/

namespace Symbolic

/-! ## What rules put in -/

/-- The heads that rules make nodes of without asking the table. -/
def ruleHeads : List String :=
  ["List", "Association", "Rule", "Power", "Times", "Optional", "TagSet", "TagSetDelayed",
    "TagUnset"]

/-- The names of the symbols that rules put in as arguments. -/
def ruleNames : List String :=
  ["Null", "All", "LongForm", "True", "False"]

/-- The heads of comparisons that chains of different comparisons repeat, and of these chains. -/
def comparisonHeads : List String :=
  ["Inequality", "Equal", "Unequal", "Less", "Greater", "LessEqual", "GreaterEqual"]

/-- A comparison has one of the heads of comparisons. -/
theorem mem_comparisonHeads {head : String} (h : Expr.isComparison head = true) :
    head ∈ comparisonHeads :=
  List.mem_cons_of_mem _ (List.contains_iff_mem.mp h)

/-- What such a chain has in it is what the comparison had, and the head that it repeats. -/
theorem Expr.mem_intersperse {e separator : Expr} {es : List Expr}
    (h : e ∈ es.intersperse separator) : e ∈ es ∨ e = separator := by
  induction es with
  | nil => exact .inl h
  | cons first es ih =>
    cases es with
    | nil => exact .inl h
    | cons second es =>
      -- the first element, the separator behind it, or something further on
      rw [List.intersperse_cons_cons, List.mem_cons, List.mem_cons] at h
      rcases h with rfl | rfl | h
      · exact .inl List.mem_cons_self
      · exact .inr rfl
      · exact (ih h).imp_left (List.mem_cons_of_mem _)

namespace OperatorTable

/-- The heads of nodes that a reader makes. -/
def heads (table : OperatorTable) : List String :=
  table.operators.map (·.head) ++ ruleHeads

/-- The heads of nodes over elements. -/
def sequenceHeads (table : OperatorTable) : List String :=
  "List" :: "Association" :: ((table.trailing? .leftBracket).map (·.head)).toList

/-- The head of an operator is one of those of its table. -/
theorem head_mem_heads {table : OperatorTable} {op : Operator} (h : op ∈ table.operators) :
    op.head ∈ table.heads :=
  List.mem_append_left _ (List.mem_map_of_mem h)

/-- So is the head of a sequence. -/
theorem mem_heads_of_mem_sequenceHeads {table : OperatorTable} {head : String}
    (h : head ∈ table.sequenceHeads) : head ∈ table.heads := by
  simp only [sequenceHeads, List.mem_cons, Option.mem_toList, Option.map_eq_some_iff] at h
  obtain rfl | rfl | ⟨op, hop, rfl⟩ := h
  · exact List.mem_append_right _ (by decide)
  · exact List.mem_append_right _ (by decide)
  · exact head_mem_heads (mem_of_trailing? hop).1

end OperatorTable

/-! ## Trees -/

mutual

/-- A tree that is built from the atoms. Trees that satisfy `beside` are those that another one
    can stand beside in an element. -/
inductive Built (table : OperatorTable) (beside : Expr → Prop) : Expr → List Token → Prop where
  | atom {e : Expr} {t : Token} (isAtom : t.kind.isAtom = true)
      (value : Expr.atom table t = .ok e) : Built table beside e [t]
  /-- A tag of a message. -/
  | tag {t : Token} (kind : t.kind = .symbol ∨ t.kind = .string) :
      Built table beside (.string t.text t.loc) [t]
  | name {name : String} {loc : Location} (known : name ∈ ruleNames) :
      Built table beside (.symbol name loc) []
  | integer {n : Int} {loc : Location} : Built table beside (.integer n loc) []
  | make {head : String} {args : List Expr} {atoms : List Token} {loc : Location}
      (known : head ∈ table.heads) (builtArgs : BuiltAll table beside args atoms) :
      Built table beside (.make table head args loc) atoms
  | sequence {head : String} {items : List Expr} {atoms : List Token} {loc : Location}
      (known : head ∈ table.sequenceHeads) (elements : Elements table beside items atoms) :
      Built table beside (.make table head items loc) atoms
  | apply {head : Expr} {items : List Expr} {headAtoms atoms : List Token} {loc : Location}
      (builtHead : Built table beside head headAtoms)
      (elements : Elements table beside items atoms) :
      Built table beside (.apply head items loc) (headAtoms ++ atoms)
  | negate {head : String} {operand : Expr} {atoms : List Token} {sign loc : Location}
      (known : head ∈ table.heads) (built : Built table beside operand atoms) :
      Built table beside (.negate table head operand sign loc) atoms
  | compare {op : String} {lhs rhs : Expr} {lhsAtoms rhsAtoms : List Token} {sign loc : Location}
      (known : op ∈ table.heads) (builtLhs : Built table beside lhs lhsAtoms)
      (builtRhs : Built table beside rhs rhsAtoms) :
      Built table beside (.compare table lhs op sign rhs loc) (lhsAtoms ++ rhsAtoms)
  | withLoc {e : Expr} {atoms : List Token} {loc : Location} (built : Built table beside e atoms) :
      Built table beside (e.withLoc loc) atoms
  | parenthesize {e : Expr} {atoms : List Token} (built : Built table beside e atoms) :
      Built table beside e.parenthesize atoms
  | perm {e : Expr} {atoms atoms' : List Token} (built : Built table beside e atoms)
      (perm : atoms.Perm atoms') : Built table beside e atoms'

/-- Trees that are built from the atoms, one after the other. -/
inductive BuiltAll (table : OperatorTable) (beside : Expr → Prop) :
    List Expr → List Token → Prop where
  | nil : BuiltAll table beside [] []
  | cons {e : Expr} {es : List Expr} {atoms atoms' : List Token}
      (first : Built table beside e atoms) (after : BuiltAll table beside es atoms') :
      BuiltAll table beside (e :: es) (atoms ++ atoms')

/-- An element of a sequence: trees side by side, or nothing. -/
inductive Element (table : OperatorTable) (beside : Expr → Prop) :
    Expr → List Token → Prop where
  | omitted {loc : Location} : Element table beside (.symbol "Null" loc) []
  | product {e : Expr} {factors : List Expr} {atoms : List Token}
      (builtFactors : BuiltAll table beside factors atoms)
      (besides : ∀ factor ∈ factors.dropLast, beside factor)
      (product : Expr.juxtaposed? factors = some e) : Element table beside e atoms

/-- Elements that are built from the atoms, one after the other. -/
inductive Elements (table : OperatorTable) (beside : Expr → Prop) :
    List Expr → List Token → Prop where
  | nil : Elements table beside [] []
  | cons {e : Expr} {es : List Expr} {atoms atoms' : List Token}
      (first : Element table beside e atoms) (after : Elements table beside es atoms') :
      Elements table beside (e :: es) (atoms ++ atoms')

end

variable {table : OperatorTable} {beside : Expr → Prop} {e lhs rhs : Expr} {es es' : List Expr}
  {atoms atoms' : List Token}

/-! ## Lists of trees -/

/-- A tree that is built is a list of such trees. -/
theorem Built.builtAll (h : Built table beside e atoms) : BuiltAll table beside [e] atoms := by
  simpa using BuiltAll.cons h .nil

/-- Two trees that are built make a list. -/
theorem BuiltAll.pair (h : Built table beside lhs atoms) (h' : Built table beside rhs atoms') :
    BuiltAll table beside [lhs, rhs] (atoms ++ atoms') :=
  .cons h h'.builtAll

/-- Lists of trees that are built go together. -/
theorem BuiltAll.append (h : BuiltAll table beside es atoms)
    (h' : BuiltAll table beside es' atoms') :
    BuiltAll table beside (es ++ es') (atoms ++ atoms') := by
  induction es generalizing atoms with
  | nil =>
    cases h
    exact h'
  | cons e es ih =>
    cases h with
    | cons first after =>
      rw [List.cons_append, List.append_assoc]
      exact .cons first (ih after)

/-- An element is a list of elements. -/
theorem Element.elements (h : Element table beside e atoms) : Elements table beside [e] atoms := by
  simpa using Elements.cons h .nil

/-- Lists of elements go together. -/
theorem Elements.append (h : Elements table beside es atoms)
    (h' : Elements table beside es' atoms') :
    Elements table beside (es ++ es') (atoms ++ atoms') := by
  induction es generalizing atoms with
  | nil =>
    cases h
    exact h'
  | cons e es ih =>
    cases h with
    | cons first after =>
      rw [List.cons_append, List.append_assoc]
      exact .cons first (ih after)

/-- A tree by itself is an element. -/
theorem Built.element (h : Built table beside e atoms) : Element table beside e atoms :=
  .product h.builtAll (by simp) rfl

/-- Trees that are built are elements. -/
theorem BuiltAll.elements (h : BuiltAll table beside es atoms) :
    Elements table beside es atoms := by
  induction es generalizing atoms with
  | nil =>
    cases h
    exact .nil
  | cons e es ih =>
    cases h with
    | cons first after => exact .cons first.element (ih after)

end Symbolic
