import Symbolic.Proofs.Layout.LaidOut
import Symbolic.Proofs.Trees.Tally

/-!
# Where the signs of constants end up

Letter-like signs such as `π` stand for constants. A sign that is a symbol of a text is the name of
its constant in the tree, in whatever place the rules put it. The names in blanks are not looked
at, so a sign stays in the tree once for each blank that has it for a name.

## Key results

- `count_symbolNames`: how often a tree has a name, as a weight
- `Token.weight_ofName`: the signs that the atom of a token keeps
- `count_symbolNames_of_read`: the signs that the tree of a text keeps
-/

namespace Symbolic

open Symbolic.Expr

namespace Expr

mutual

/-- The names of all symbols in the tree, heads included. -/
def symbolNames : Expr → List String
  | .symbol name _ => [name]
  | .number _ _ | .string _ _ => []
  | .node head children _ _ => symbolNames head ++ allSymbolNames children

/-- The names of all symbols in the trees. -/
def allSymbolNames : List Expr → List String
  | [] => []
  | e :: es => symbolNames e ++ allSymbolNames es

end

end Expr

/-- The names in the text of a token: that of a pattern, and that of the head it asks for. -/
def Token.patternNames (t : Token) : List String :=
  if t.kind = .blank then blankNames t.text.toList else []

/-- A symbol of the name weighs one, and nothing else weighs anything. -/
def Weighing.ofName (name : String) : Weighing where
  symbol other := [other].count name
  string _ := 0

variable {name sign text : String} {table : OperatorTable}

/-! ## Names as weights -/

mutual

theorem Expr.count_symbolNames (name : String) :
    ∀ e : Expr, e.symbolNames.count name = e.tally (.ofName name)
  | .symbol .. | .number .. | .string .. => rfl
  | .node head children .. => by
    rw [symbolNames, tally, List.count_append, count_symbolNames name head,
      count_allSymbolNames name children]

theorem Expr.count_allSymbolNames (name : String) :
    ∀ es : List Expr, (allSymbolNames es).count name = tallyAll (.ofName name) es
  | [] => rfl
  | e :: es => by
    rw [allSymbolNames, tallyAll, List.count_append, count_symbolNames name e,
      count_allSymbolNames name es]

end

theorem Weighing.sum_map_ofName (name : String) (names : List String) :
    (names.map (ofName name).symbol).sum = names.count name := by
  induction names with
  | nil => rfl
  | cons other names ih =>
    rw [List.map_cons, List.sum_cons, ih, ← List.singleton_append, List.count_append]
    rfl

/-! ## Signs -/

section Signs

variable (hsign : sign ∈ constantSigns)
include hsign

/-- No name stands for a sign. -/
theorem Expr.canonicalName_ne_sign (name : String) : canonicalName name ≠ sign := by
  rcases canonicalName_cases name with hsame | hconstant
  · -- a name that stands for itself is no sign
    have hsigns : ∀ sign ∈ constantSigns, canonicalName sign ≠ sign := by
      decide
    rintro heq
    rw [heq] at hsame
    subst hsame
    exact hsigns _ hsign heq
  · have hnames : ∀ sign ∈ constantSigns, sign ∉ constantNames := by
      decide
    exact ne_of_mem_of_not_mem hconstant (hnames sign hsign)

theorem Weighing.ofName_canonicalName (name : String) :
    (ofName sign).symbol (canonicalName name) = 0 := by
  simp [ofName, canonicalName_ne_sign hsign name]

theorem Weighing.ignores_ofName : (ofName sign).Ignores .standard := by
  have hnames : ∀ sign ∈ constantSigns, sign ∉ OperatorTable.standard.heads ∧
      sign ∉ ruleNames ∧ sign ∉ comparisonHeads ∧ sign ∉ atomHeads := by
    decide
  have hzero : ∀ {names : List String}, sign ∉ names → ∀ name ∈ names,
      (ofName sign).symbol name = 0 := by
    intro names hnot name hmem
    simp [ofName, ne_of_mem_of_not_mem hmem hnot]
  obtain ⟨hheads, hrules, hcomparisons, hatoms⟩ := hnames sign hsign
  exact ⟨hzero hheads, hzero hrules, hzero hcomparisons, hzero hatoms⟩

/-- Of the atoms that tokens stand for, only blanks have signs in them. -/
theorem Token.weight_ofName (t : Token) :
    t.weight (.ofName sign) = t.patternNames.count sign := by
  unfold weight patternNames
  split
  case h_1 hkind => rw [hkind, Weighing.ofName_canonicalName hsign]; rfl
  case h_5 hkind => rw [if_pos hkind, Weighing.sum_map_ofName]
  case h_6 hkind => rw [if_neg hkind]; rfl
  -- neither strings nor slots have symbols in them
  all_goals
    rename_i hkind
    rw [hkind]
    simp [Weighing.ofName]

end Signs

/-! ## Whole texts -/

/-- The tree of a text has the sign of a constant for a name exactly as often as the blanks of the
    text do: all other signs are there as constants. -/
theorem count_symbolNames_of_read {limit : Nat} {e : Expr} (hsign : sign ∈ constantSigns)
    (hread : read ⟨.standard, limit⟩ text = .ok (some e)) :
    ∃ tokens, tokenize text = .ok tokens ∧
      e.symbolNames.count sign = (tokens.flatMap Token.patternNames).count sign := by
  unfold read at hread
  split at hread
  · cases hread
  rename_i tokens htokens
  split at hread
  · cases hread
  rename_i result htree
  cases hread
  obtain ⟨sources, hlaid⟩ := Scan.exists_laidOut_of_tokenize htokens
  obtain ⟨init, stop, rfl, hinit⟩ := hlaid.exists_init
  -- the end of the input is the last token and the only one of its kind
  have htake : (init ++ [Token.endOfInput stop]).takeWhile (·.kind != .endOfInput) = init := by
    rw [List.takeWhile_append_of_pos fun t ht => bne_iff_ne.mpr (hinit t ht)]
    exact List.append_nil _
  have halike : ∀ t ∈ init ++ [Token.endOfInput stop], t.WeighsAlike (.ofName sign) :=
    fun t _ _ => (Weighing.ofName_canonicalName hsign t.text).symm
  refine ⟨_, htokens, ?_⟩
  rw [count_symbolNames, tally_of_readTokens (by decide) (Weighing.ignores_ofName hsign) halike
    htree, htake, List.flatMap_append, List.count_append, List.count_flatMap]
  -- by names a token weighs what it names in a pattern
  have hweights : init.map (Token.weight (.ofName sign)) =
      init.map (List.count sign ∘ Token.patternNames) :=
    List.map_congr_left fun t _ => t.weight_ofName hsign
  rw [hweights]
  rfl

/-- The text `π_ + π` is read as the sum of a pattern and a constant. -/
theorem count_symbolNames_piPattern :
    let symbol (name : String) (start stop : UInt32) : Expr := .symbol name ⟨start, stop⟩
    let node (head : Expr) (es : List Expr) (loc : Location) : Expr := .node head es false loc
    let pattern := node (symbol "Pattern" 0 3)
      [symbol "π" 0 3, node (symbol "Blank" 0 3) [] ⟨0, 3⟩] ⟨0, 3⟩
    let sum := node (symbol "Plus" 0 8) [pattern, symbol "Pi" 6 8] ⟨0, 8⟩
    "π" ∈ constantSigns ∧ read ⟨.standard, 128⟩ "π_ + π" = .ok (some sum) ∧
      ∃ tokens, tokenize "π_ + π" = .ok tokens ∧
        sum.symbolNames.count "π" = (tokens.flatMap Token.patternNames).count "π" := by
  intro symbol node pattern sum
  have hsign : "π" ∈ constantSigns := by decide
  have hread : read ⟨.standard, 128⟩ "π_ + π" = .ok (some sum) := by decide +kernel
  exact ⟨hsign, hread, count_symbolNames_of_read hsign hread⟩

/-- A sign that a blank has for a name is not read as its constant. -/
theorem exists_sign_of_read_pattern : ∃ e, read {} "\\[Pi]_" = .ok (some e) ∧
    ∃ sign ∈ constantSigns, sign ∈ e.symbolNames :=
  ⟨.node (.symbol "Pattern" ⟨0, 6⟩)
      [.symbol "π" ⟨0, 6⟩, .node (.symbol "Blank" ⟨0, 6⟩) [] false ⟨0, 6⟩] false ⟨0, 6⟩,
    by decide +kernel, "π", by decide, by decide⟩

end Symbolic
