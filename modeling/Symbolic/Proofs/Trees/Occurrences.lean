import Symbolic.Proofs.Trees.Tally

/-!
# No operand is lost or duplicated

Rules reorder their operands, splice the children of nodes into other nodes, and rebuild chains of
comparisons. Nothing that stands in the input gets lost on the way, and nothing is put in twice: a
text that is none of the reader's own names occurs in the tree as often as it is the text of a
symbol, a string or a file name of the input. This is so for every table that gives no meaning to
atoms as operators.

## Key results

- `occurrences_eq_tally`: occurrences as weights
- `weight_eq_bears`: the occurrences in an atom
- `Element.occurrences_eq`: the occurrences in a tree are those among its atoms
- `occurrences_of_readTokens`: the same for whole inputs
-/

namespace Symbolic

/-! ## Texts of tokens -/

namespace Token

/-- Whether the token is a symbol, a string or a file name of the text. -/
def bears (text : String) (t : Token) : Bool :=
  [TokenKind.symbol, .string, .filename].contains t.kind && t.text == text

/-- Whether the token is a slot or a blank with the text in it. -/
def Hides (text : String) (t : Token) : Prop :=
  (t.kind = .slot ∨ t.kind = .blank) ∧ text.toList <:+: t.text.toList

instance (text : String) (t : Token) : Decidable (t.Hides text) :=
  inferInstanceAs (Decidable (_ ∧ _))

/-- A token that bears a text is an atom. -/
theorem isAtom_of_bears {text : String} {t : Token} (h : t.bears text = true) :
    t.kind.isAtom = true := by
  have hall : ∀ kind ∈ [TokenKind.symbol, .string, .filename], kind.isAtom = true := by
    decide
  exact hall _ (List.contains_iff_mem.mp (Bool.and_eq_true_iff.mp h).1)

end Token

/-- The text is none of the names that a reader puts into trees by itself, and none of the signs
    that it takes for the name of a constant. -/
structure OperatorTable.Foreign (table : OperatorTable) (text : String) : Prop where
  heads : text ∉ table.heads
  ruleNames : text ∉ ruleNames
  comparisonHeads : text ∉ comparisonHeads
  atomHeads : text ∉ Expr.atomHeads
  constantNames : text ∉ Expr.constantNames
  constantSigns : text ∉ Expr.constantSigns

namespace Expr

/-! ## Occurrences -/

mutual

/-- How many symbols and strings of the text there are in the tree, heads included. -/
def occurrences (text : String) : Expr → Nat
  | .symbol name _ => (name == text).toNat
  | .number _ _ => 0
  | .string value _ => (value == text).toNat
  | .node head children _ _ => head.occurrences text + occurrencesAll text children

/-- How many of them there are in the trees. -/
def occurrencesAll (text : String) : List Expr → Nat
  | [] => 0
  | e :: es => e.occurrences text + occurrencesAll text es

end

end Expr

/-! ## Occurrences as weights -/

/-- The text itself weighs one, and nothing else weighs anything. -/
def Weighing.ofText (text : String) : Weighing where
  symbol name := (name == text).toNat
  string value := (value == text).toNat

section Weights

open Symbolic.Expr

variable {table : OperatorTable} {beside : Expr → Prop} {text : String} {e : Expr} {t : Token}

mutual

/-- Occurrences of a text are a way of weighing. -/
theorem Expr.occurrences_eq_tally (text : String) :
    ∀ e : Expr, e.occurrences text = e.tally (.ofText text)
  | .symbol .. | .number .. | .string .. => rfl
  | .node head children .. => by
    rw [occurrences, tally, occurrences_eq_tally text head,
      occurrencesAll_eq_tallyAll text children]

/-- So are those in several trees. -/
theorem Expr.occurrencesAll_eq_tallyAll (text : String) :
    ∀ es : List Expr, occurrencesAll text es = tallyAll (.ofText text) es
  | [] => rfl
  | e :: es => by
    rw [occurrencesAll, tallyAll, occurrences_eq_tally text e, occurrencesAll_eq_tallyAll text es]

end

theorem toNat_beq_of_ne {name : String} (h : name ≠ text) : (name == text).toNat = 0 := by
  simp [h]

/-- The rules of a table put in no text that is foreign to it. -/
theorem OperatorTable.Foreign.ignores (h : table.Foreign text) :
    (Weighing.ofText text).Ignores table := by
  have hzero : ∀ {names : List String}, text ∉ names → ∀ name ∈ names,
      (Weighing.ofText text).symbol name = 0 := by
    rintro names htext name hname
    exact toNat_beq_of_ne (ne_of_mem_of_not_mem hname htext)
  exact ⟨hzero h.heads, hzero h.ruleNames, hzero h.comparisonHeads, hzero h.atomHeads⟩

/-- A symbol stands for a symbol of the text if that is its own name. -/
theorem OperatorTable.Foreign.canonicalName_beq (h : table.Foreign text) (name : String) :
    (canonicalName name == text) = (name == text) := by
  rw [Bool.eq_iff_iff, beq_iff_eq, beq_iff_eq]
  exact canonicalName_eq_iff h.constantNames h.constantSigns

/-- The names in a blank are within its text. -/
theorem Expr.infix_of_mem_blankNames {cs : List Char} {name : String} (h : name ∈ blankNames cs) :
    name.toList <:+: cs := by
  unfold blankNames at h
  simp only [List.mem_map, List.mem_filter] at h
  obtain ⟨part, ⟨hpart, -⟩, rfl⟩ := h
  rw [String.toList_ofList]
  split at hpart
  · rename_i found hname
    obtain rfl := List.mem_singleton.mp hpart
    rw [eq_of_optionalName? hname]
    exact (List.prefix_append _ _).isInfix
  · rcases List.mem_cons.mp hpart with rfl | hpart
    · -- the name before the underscores
      exact (List.takeWhile_prefix _).isInfix
    · obtain rfl := List.mem_singleton.mp hpart
      -- the head behind them
      exact ((List.dropWhile_suffix _).trans (List.dropWhile_suffix _)).isInfix

/-- A text that a token does not hide is found where the token bears it. -/
theorem weight_eq_bears (hforeign : table.Foreign text) (hhides : ¬ t.Hides text) :
    t.weight (.ofText text) = (t.bears text).toNat := by
  have hbears : ∀ kind, t.kind = kind → t.bears text =
      ([TokenKind.symbol, .string, .filename].contains kind && t.text == text) := by
    rintro _ rfl
    rfl
  unfold Token.weight
  split
  · rename_i hkind
    rw [hbears _ hkind]
    exact congrArg Bool.toNat (hforeign.canonicalName_beq t.text)
  · rename_i hkind
    rw [hbears _ hkind]
    rfl
  · rename_i hkind
    rw [hbears _ hkind]
    rfl
  · -- the name of a slot is within the text of its token
    rename_i hkind
    have hwithin : ¬ text.toList <:+: t.text.toList := fun h => hhides ⟨.inl hkind, h⟩
    have hname : t.slotName.isEmpty = false → String.ofList t.slotName ≠ text := by
      rintro hne rfl
      unfold Token.slotName at hwithin hne
      rw [String.toList_ofList] at hwithin
      dsimp only at hwithin hne
      split at hwithin
      · exact hwithin List.nil_infix
      · exact hwithin (infix_textAfter 1 t)
    rw [hbears _ hkind]
    split
    · rfl
    · rename_i hne
      exact toNat_beq_of_ne (hname (Bool.eq_false_iff.mpr hne))
  · -- and so are the names in a blank
    rename_i hkind
    have hwithin : ¬ text.toList <:+: t.text.toList := fun h => hhides ⟨.inr hkind, h⟩
    rw [hbears _ hkind]
    refine List.sum_eq_zero_iff_forall_eq_nat.mpr fun n hn => ?_
    obtain ⟨name, hmem, rfl⟩ := List.mem_map.mp hn
    refine toNat_beq_of_ne ?_
    rintro rfl
    exact hwithin (infix_of_mem_blankNames hmem)
  · rename_i hsymbol hstring hfilename _ _
    rw [Token.bears, show [TokenKind.symbol, .string, .filename].contains t.kind = false by
      simpa using ⟨hsymbol, hstring, hfilename⟩]
    rfl

/-- A text occurs in an element as often as its tokens bear it. -/
theorem Element.occurrences_eq {atoms : List Token} (hforeign : table.Foreign text)
    (h : Element table beside e atoms) (hatoms : ∀ t ∈ atoms, ¬ t.Hides text) :
    e.occurrences text = atoms.countP (Token.bears text) := by
  rw [occurrences_eq_tally, h.tally_eq hforeign.ignores fun t _ _ =>
    (congrArg Bool.toNat (hforeign.canonicalName_beq t.text)).symm]
  clear h
  induction atoms with
  | nil => rfl
  | cons t atoms ih =>
    obtain ⟨ht, hatoms⟩ := List.forall_mem_cons.mp hatoms
    rw [List.map_cons, List.sum_cons, ih hatoms, weight_eq_bears hforeign ht, List.countP_cons,
      Nat.add_comm]
    cases t.bears text <;> rfl

end Weights

/-! ## Whole inputs -/

/-- A text that is none of the reader's own names, and that no slot or blank hides, occurs in the
    tree of an input as often as a symbol, a string or a file name of the input has it. -/
theorem occurrences_of_readTokens {table : OperatorTable} {limit : Nat} {tokens : List Token}
    {e : Expr} {text : String} (hatoms : ∀ op ∈ table.operators, op.kind.isAtom = false)
    (hforeign : table.Foreign text)
    (hhides : ∀ t ∈ tokens.takeWhile (·.kind != .endOfInput), ¬ t.Hides text)
    (hread : readTokens ⟨table, limit⟩ tokens = .ok (some e)) :
    e.occurrences text =
      (tokens.takeWhile (·.kind != .endOfInput)).countP (Token.bears text) := by
  have helement : Element table (fun _ => True) e _ :=
    Reader.element_of_readTokens hatoms (fun _ _ => trivial) hread
  rw [helement.occurrences_eq hforeign fun t ht => hhides t (List.mem_filter.mp ht).1,
    List.countP_filter]
  -- only atoms bear a text
  refine List.countP_congr fun t _ => ?_
  rw [Bool.and_eq_true]
  exact and_iff_left_of_imp Token.isAtom_of_bears

/-- The tokens of `f[x_] := a < x <= "a"`. -/
def mixedDefinition : List Token :=
  [⟨.symbol, "f", .zero⟩, ⟨.leftBracket, "[", .zero⟩, ⟨.blank, "x_", .zero⟩,
    ⟨.rightBracket, "]", .zero⟩, ⟨.setDelayed, ":=", .zero⟩, ⟨.symbol, "a", .zero⟩,
    ⟨.less, "<", .zero⟩, ⟨.symbol, "x", .zero⟩, ⟨.lessEqual, "<=", .zero⟩,
    ⟨.string, "a", .zero⟩]

/-- The tree of `f[x_] := a < x <= "a"`. -/
def mixedDefinitionTree : Expr :=
  let leaf (name : String) : Expr := .symbol name .zero
  let node (head : Expr) (children : List Expr) : Expr := .node head children false .zero
  let pattern := node (leaf "Pattern") [leaf "x", node (leaf "Blank") []]
  let chain := node (leaf "Inequality")
    [leaf "a", leaf "Less", leaf "x", leaf "LessEqual", .string "a" .zero]
  node (leaf "SetDelayed") [.node (leaf "f") [pattern] true .zero, chain]

theorem occurrences_mixedDefinition : (∀ op ∈ OperatorTable.standard.operators,
      op.kind.isAtom = false) ∧ OperatorTable.standard.Foreign "a" ∧
    (∀ t ∈ mixedDefinition.takeWhile (·.kind != .endOfInput), ¬ t.Hides "a") ∧
    readTokens {} mixedDefinition = .ok (some mixedDefinitionTree) ∧
    mixedDefinitionTree.occurrences "a" =
      (mixedDefinition.takeWhile (·.kind != .endOfInput)).countP (Token.bears "a") := by
  have hatoms : ∀ op ∈ OperatorTable.standard.operators, op.kind.isAtom = false := by
    decide
  have hforeign : OperatorTable.standard.Foreign "a" := by
    constructor <;> decide
  have hhides : ∀ t ∈ mixedDefinition.takeWhile (·.kind != .endOfInput), ¬ t.Hides "a" := by
    decide
  have hread : readTokens {} mixedDefinition = .ok (some mixedDefinitionTree) := by
    decide +kernel
  exact ⟨hatoms, hforeign, hhides, hread, occurrences_of_readTokens hatoms hforeign hhides hread⟩

end Symbolic
