import Symbolic.Operator.Basic

/-! # Operator tables

A table holds at most one operator for each kind of token and fixity. It also names the
precedence of operators that have no token of their own.

* `OperatorTable.lookup?_eq_some_iff`  looking up finds just the operators that are held -/

namespace Symbolic

/-- Operators, at most one for each kind of token and fixity, and named precedences. -/
structure OperatorTable where
  operators : List Operator
  named : List (String × Precedence)
  distinct : (operators.map Operator.key).Nodup

/-- Two operators that one table cannot hold together. -/
structure OperatorClash where
  existing : Operator
  added : Operator
deriving DecidableEq, Repr

namespace OperatorClash

/-- The fixity and kind that both operators claim, and their heads. -/
def message (clash : OperatorClash) : String :=
  "duplicate " ++ clash.added.fixity.name ++ " operator for " ++ clash.added.kind.name ++ ": "
    ++ clash.existing.head ++ " and " ++ clash.added.head

end OperatorClash

namespace OperatorTable

/-- The table without operators. -/
def empty : OperatorTable :=
  ⟨[], [], .nil⟩

/-- The operator for a kind of token in a position. -/
def lookup? (table : OperatorTable) (kind : TokenKind) (fixity : Fixity) : Option Operator :=
  table.operators.find? fun op => op.key = (kind, fixity)

/-- The operator that applies to a kind of token after a left operand. -/
def trailing? (table : OperatorTable) (kind : TokenKind) : Option Operator :=
  table.lookup? kind .infixed
    <|> table.lookup? kind .postfixed
    <|> table.lookup? kind .ternary

/-- Whether nodes with the head take up the children of nodes with the same head. -/
def isFlat (table : OperatorTable) (head : String) : Bool :=
  table.operators.any fun op => op.associativity == .flat && op.head == head

/-- The precedence of an operator that is known by name only. -/
def namedPrecedence? (table : OperatorTable) (name : String) : Option Precedence :=
  table.named.lookup name

/-- How many operators the table holds. -/
def size (table : OperatorTable) : Nat :=
  table.operators.length

/-- What is looked up has the kind and the fixity asked for. -/
theorem key_of_lookup? {table : OperatorTable} {kind : TokenKind} {fixity : Fixity}
    {op : Operator} (h : table.lookup? kind fixity = some op) : op.key = (kind, fixity) := by
  simpa using List.find?_some h

/-- What is looked up is in the table. -/
theorem mem_of_lookup? {table : OperatorTable} {kind : TokenKind} {fixity : Fixity}
    {op : Operator} (h : table.lookup? kind fixity = some op) : op ∈ table.operators :=
  List.mem_of_find?_eq_some h

/-- What extends an operand is looked up, and not as a prefix. -/
theorem exists_lookup?_of_trailing? {table : OperatorTable} {kind : TokenKind} {op : Operator}
    (h : table.trailing? kind = some op) :
    ∃ fixity, fixity ≠ .prefixed ∧ table.lookup? kind fixity = some op := by
  unfold trailing? at h
  cases hinfixed : table.lookup? kind .infixed with
  | some found => exact ⟨.infixed, by decide, by simpa [hinfixed] using h⟩
  | none =>
    cases hpostfixed : table.lookup? kind .postfixed with
    | some found => exact ⟨.postfixed, by decide, by simpa [hinfixed, hpostfixed] using h⟩
    | none => exact ⟨.ternary, by decide, by simpa [hinfixed, hpostfixed] using h⟩

theorem mem_of_trailing? {table : OperatorTable} {kind : TokenKind} {op : Operator}
    (h : table.trailing? kind = some op) :
    op ∈ table.operators ∧ op.kind = kind ∧ op.fixity ≠ .prefixed := by
  obtain ⟨fixity, hne, hlookup⟩ := exists_lookup?_of_trailing? h
  obtain ⟨hkind, hfixity⟩ := Prod.mk.inj (key_of_lookup? hlookup)
  exact ⟨mem_of_lookup? hlookup, hkind, hfixity ▸ hne⟩

theorem lookup?_of_trailing? {table : OperatorTable} {kind : TokenKind} {op : Operator}
    (h : table.trailing? kind = some op) : table.lookup? kind op.fixity = some op := by
  obtain ⟨fixity, -, hlookup⟩ := exists_lookup?_of_trailing? h
  obtain ⟨-, hfixity⟩ := Prod.mk.inj (key_of_lookup? hlookup)
  rwa [hfixity]

/-- An infix operator extends an operand before any other does. -/
theorem trailing?_of_infixed {table : OperatorTable} {kind : TokenKind} {op : Operator}
    (h : table.lookup? kind .infixed = some op) : table.trailing? kind = some op := by
  simp [trailing?, h]

theorem key_notMem_of_lookup? {table : OperatorTable} {op : Operator}
    (h : table.lookup? op.kind op.fixity = none) : op.key ∉ table.operators.map Operator.key := by
  simp only [lookup?, List.find?_eq_none, decide_eq_true_eq] at h
  rintro hmem
  obtain ⟨other, hother, hkey⟩ := List.mem_map.mp hmem
  exact h other hother hkey

/-- Looking up finds just the operators that are held. -/
theorem lookup?_eq_some_iff {table : OperatorTable} {op : Operator} :
    table.lookup? op.kind op.fixity = some op ↔ op ∈ table.operators := by
  refine ⟨mem_of_lookup?, fun hmem => ?_⟩
  obtain ⟨before, after, hsplit⟩ := List.append_of_mem hmem
  have hnodup := table.distinct
  rw [hsplit, List.map_append, List.map_cons, List.nodup_append] at hnodup
  -- keys are distinct, so no operator listed before answers for this one
  have hbefore : before.find? (fun other => other.key = op.key) = none := by
    simp only [List.find?_eq_none, decide_eq_true_eq]
    exact fun other hother =>
      hnodup.2.2 other.key (List.mem_map_of_mem hother) op.key (by simp)
  have hkey : (op.kind, op.fixity) = op.key := rfl
  rw [lookup?, hkey, hsplit, List.find?_append, hbefore]
  simp

/-- Adds an operator, unless the table has one for its kind and fixity. -/
def insert (table : OperatorTable) (op : Operator) : Except OperatorClash OperatorTable :=
  match h : table.lookup? op.kind op.fixity with
  | some existing => .error ⟨existing, op⟩
  | none =>
    .ok ⟨op :: table.operators, table.named,
      List.nodup_cons.mpr ⟨key_notMem_of_lookup? h, table.distinct⟩⟩

/-- The table of a list of operators, or the first two that clash. -/
def ofList (operators : List Operator) : Except OperatorClash OperatorTable :=
  operators.foldlM insert empty

/-- Names a precedence, in place of an earlier one of the same name. -/
def withNamed (table : OperatorTable) (name : String) (precedence : Precedence) : OperatorTable :=
  { table with named := (name, precedence) :: table.named }

end OperatorTable

end Symbolic
