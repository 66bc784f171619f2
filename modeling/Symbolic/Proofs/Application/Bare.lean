import Symbolic.Expr.Comparison
import Symbolic.Expr.FullForm
import Symbolic.Proofs.Trees.Built

/-!
# Trees without brackets of their own

The full form of a tree shows neither where the tree is nor which of its nodes stand in brackets of
their own. Where a node is made, the latter matters: an argument that is open may be taken apart.
So two arguments that look the same give nodes that look the same, if both are open or neither is
where the node asks for that.

## Key results

- `Expr.bare`, `Expr.fullForm_bare`: what the full form shows of a tree
- `Expr.Twin`: trees that look the same, and are open alike as far as some heads are concerned
- `Expr.twin_make`, `Expr.twin_compare`: nodes over such trees
-/

namespace Symbolic.Expr

mutual

/-- The tree with no location and with no node in brackets of its own. -/
def bare : Expr → Expr
  | .symbol name _ => .symbol name .zero
  | .number value _ => .number value .zero
  | .string value _ => .string value .zero
  | .node head children _ _ => .node head.bare (bareAll children) false .zero

/-- The trees with no locations and with no nodes in brackets of their own. -/
def bareAll : List Expr → List Expr
  | [] => []
  | e :: es => e.bare :: bareAll es

end

/-- Trees are stripped one by one. -/
theorem bareAll_eq_map (es : List Expr) : bareAll es = es.map bare := by
  induction es with
  | nil => rfl
  | cons e es ih => simp [bareAll, ih]

mutual

/-- The full form of a tree does not show what is stripped. -/
theorem fullForm_bare : ∀ e : Expr, e.bare.fullForm = e.fullForm
  | .symbol .. | .number .. | .string .. => by simp [bare, fullForm]
  | .node head children .. => by
    rw [bare, fullForm, fullForm, fullForm_bare head, fullForms_bareAll children]

/-- Neither do the full forms of several trees. -/
theorem fullForms_bareAll : ∀ es : List Expr, fullForms (bareAll es) = fullForms es
  | [] => rfl
  | e :: es => by
    rw [bareAll, fullForms, fullForms, fullForm_bare e, fullFormsAfter_bareAll es]

/-- Nor do they behind a comma. -/
theorem fullFormsAfter_bareAll : ∀ es : List Expr, fullFormsAfter (bareAll es) = fullFormsAfter es
  | [] => rfl
  | e :: es => by
    rw [bareAll, fullFormsAfter, fullFormsAfter, fullForm_bare e, fullFormsAfter_bareAll es]

end

/-- Trees that are the same when stripped are written the same. -/
theorem text_eq_of_bare {e e' : Expr} (h : e.bare = e'.bare) : e.text = e'.text := by
  rw [text, text, ← fullForm_bare e, ← fullForm_bare e', h]

variable {table : OperatorTable} {heads : Set String} {e e' f f' : Expr} {es es' : List Expr}
  {head : String} {loc loc' : Location}

/-! ## Parts -/

/-- A symbol loses its location. -/
@[simp] theorem bare_symbol (name : String) (loc : Location) :
    (symbol name loc).bare = .symbol name .zero := rfl

/-- A node loses its location and its brackets. -/
@[simp] theorem bare_node (head : Expr) (children : List Expr) (parenthesized : Bool)
    (loc : Location) : (node head children parenthesized loc).bare =
      .node head.bare (children.map bare) false .zero := by
  rw [bare, bareAll_eq_map]

/-- A symbol keeps its name. -/
@[simp] theorem symbolName?_bare (e : Expr) : e.bare.symbolName? = e.symbolName? := by
  cases e <;> simp [symbolName?, bare]

/-- A node keeps the name of its head. -/
@[simp] theorem headName?_bare (e : Expr) : e.bare.headName? = e.headName? := by
  cases e <;> simp [headName?, bare]

/-- The children of a node are stripped with it. -/
@[simp] theorem children_bare (e : Expr) : e.bare.children = e.children.map bare := by
  cases e <;> simp [children, bare, bareAll_eq_map]

/-- Trees that are the same when stripped are symbols of the same name or none. -/
theorem symbolName?_eq_of_bare (h : e.bare = e'.bare) : e.symbolName? = e'.symbolName? := by
  rw [← symbolName?_bare e, h, symbolName?_bare]

/-- Their heads have the same name or none. -/
theorem headName?_eq_of_bare (h : e.bare = e'.bare) : e.headName? = e'.headName? := by
  rw [← headName?_bare e, h, headName?_bare]

/-- Their children are the same when stripped. -/
theorem map_bare_children (h : e.bare = e'.bare) :
    e.children.map bare = e'.children.map bare := by
  rw [← children_bare, h, children_bare]

/-- An open node of a head is a node without brackets of its own. -/
theorem exists_eq_node_of_isOpenNode (h : e.isOpenNode head = true) :
    ∃ headLoc children loc, e = .node (.symbol head headLoc) children false loc := by
  unfold isOpenNode headName? at h
  cases e with
  | node inner children parenthesized loc =>
    -- only a node has a head, and only a symbol gives the head its name
    cases inner with
    | symbol name headLoc =>
      simp only [symbolName?, isParenthesized, Bool.and_eq_true, beq_iff_eq, Option.some.injEq,
        Bool.not_eq_true'] at h
      obtain ⟨rfl, rfl⟩ := h
      exact ⟨headLoc, children, loc, rfl⟩
    | _ => simp [symbolName?] at h
  | _ => simp at h

/-! ## Trees that look the same -/

/-- The two trees look the same, and for each of the heads either both are open nodes or neither
    is. -/
structure Twin (heads : Set String) (e e' : Expr) : Prop where
  bare : e.bare = e'.bare
  isOpenNode : ∀ head ∈ heads, e.isOpenNode head = e'.isOpenNode head

/-- Trees that look the same and are both in brackets of their own, or both not, are alike to any
    rule. -/
theorem twin_of_isParenthesized (h : e.bare = e'.bare)
    (hparen : e.isParenthesized = e'.isParenthesized) : Twin .univ e e' :=
  ⟨h, fun head _ => by rw [isOpenNode, isOpenNode, headName?_eq_of_bare h, hparen]⟩

/-- Fewer heads have less to agree on. -/
theorem Twin.mono {heads' : Set String} (h : Twin heads e e') (hle : heads' ⊆ heads) :
    Twin heads' e e' :=
  ⟨h.bare, fun head hmem => h.isOpenNode head (hle hmem)⟩

/-! ## Making nodes -/

/-- Twins contribute the same to a node. -/
theorem map_bare_contribution (h : Twin heads e e') (hhead : head ∈ heads) :
    (contribution head e).map Expr.bare = (contribution head e').map Expr.bare := by
  rw [contribution, contribution, h.isOpenNode head hhead]
  split
  · exact map_bare_children h.bare
  · simp [h.bare]

/-- Nodes whose first arguments look the same. A flat head asks whether these are open. -/
theorem twin_make (h : Twin heads e e') (hflat : table.isFlat head = true → head ∈ heads) :
    Twin .univ (make table head (e :: es) loc) (make table head (e' :: es) loc') := by
  refine twin_of_isParenthesized ?_ rfl
  have harguments : (arguments table head (e :: es)).map Expr.bare =
      (arguments table head (e' :: es)).map Expr.bare := by
    unfold arguments
    split
    · -- a flat head takes up the children of its open arguments
      rename_i hhead
      rw [List.flatMap_cons, List.flatMap_cons, List.map_append, List.map_append,
        map_bare_contribution h (hflat hhead)]
    · rw [List.map_cons, List.map_cons, h.bare]
  simp [make, harguments]

/-- A head that is not flat asks for nothing. -/
theorem twin_make_of_bare (hflat : table.isFlat head = false)
    (h : es.map Expr.bare = es'.map Expr.bare) :
    Twin .univ (make table head es loc) (make table head es' loc') := by
  refine twin_of_isParenthesized ?_ rfl
  simp [make, arguments, hflat, h]

/-- Applications keep their arguments as they are. -/
theorem twin_apply (hf : f.bare = f'.bare) (hes : es.map Expr.bare = es'.map Expr.bare) :
    Twin .univ (apply f es loc) (apply f' es' loc') := by
  refine twin_of_isParenthesized ?_ rfl
  simp [apply, hf, hes]

/-- Brackets of its own are stripped off a tree. -/
theorem bare_parenthesize (e : Expr) : e.parenthesize.bare = e.bare := by
  cases e <;> simp [parenthesize]

/-- Calls in brackets are twins when their parts are the same. -/
theorem twin_parenthesize_apply (hf : f.bare = f'.bare) :
    Twin .univ (apply f es loc).parenthesize (apply f' es loc').parenthesize := by
  refine twin_of_isParenthesized ?_ rfl
  simp [bare_parenthesize, apply, hf]

/-! ## Comparisons -/

/-- What is no open comparison is compared as it is. -/
theorem compare_eq_make {op : String} {sign : Location} {rhs : Expr}
    (h : ∀ head ∈ comparisonHeads, e.isOpenNode head = false) :
    compare table e op sign rhs loc = make table op [e, rhs] loc := by
  unfold compare
  split
  · rename_i head headLoc children lhsLoc
    -- a chain is only taken up from an open comparison
    have hnot : head ∉ comparisonHeads := by
      intro hmem
      simpa [isOpenNode, headName?, symbolName?, isParenthesized] using h head hmem
    rw [if_neg (by rintro rfl; exact hnot (by decide)),
      if_neg fun hmixed => hnot (mem_comparisonHeads hmixed.2)]
  · rfl

/-- Trees with a separator between them are stripped one by one. -/
theorem map_bare_intersperse (separator : Expr) (es : List Expr) :
    (es.intersperse separator).map Expr.bare = (es.map Expr.bare).intersperse separator.bare := by
  induction es with
  | nil => rfl
  | cons e es ih =>
    cases es with
    | nil => rfl
    | cons e' es =>
      rw [List.intersperse_cons_cons, List.map_cons, List.map_cons, ih]
      rfl

/-- Comparisons of twins are twins. -/
theorem twin_compare {op : String} {sign : Location} {rhs : Expr} (h : Twin heads e e')
    (hheads : ∀ head ∈ comparisonHeads, head ∈ heads) (hop : op ∈ comparisonHeads) :
    Twin .univ (compare .standard e op sign rhs loc) (compare .standard e' op sign rhs loc') := by
  by_cases hopen : ∃ head ∈ comparisonHeads, e.isOpenNode head = true
  · -- both go on with the same chain
    obtain ⟨head, hmem, hopen⟩ := hopen
    have hopen' := (h.isOpenNode head (hheads head hmem)).symm.trans hopen
    obtain ⟨headLoc, children, lhsLoc, rfl⟩ := exists_eq_node_of_isOpenNode hopen
    obtain ⟨headLoc', children', lhsLoc', rfl⟩ := exists_eq_node_of_isOpenNode hopen'
    have hchildren : children.map Expr.bare = children'.map Expr.bare := map_bare_children h.bare
    unfold compare
    dsimp only
    split
    · refine twin_of_isParenthesized ?_ rfl
      simp [hchildren]
    split
    · -- the head of the first comparison stands between the operands so far
      exact twin_make_of_bare (by decide +kernel) (by simp [map_bare_intersperse, hchildren])
    · exact twin_make h fun _ => hheads op hop
  · -- both are compared as they are
    have hclosed : ∀ head ∈ comparisonHeads, e.isOpenNode head = false := by simpa using hopen
    have hclosed' : ∀ head ∈ comparisonHeads, e'.isOpenNode head = false :=
      fun head hmem => (h.isOpenNode head (hheads head hmem)).symm.trans (hclosed head hmem)
    rw [compare_eq_make hclosed, compare_eq_make hclosed']
    exact twin_make h fun _ => hheads op hop

/-! ## Side by side -/

/-- Factors that are the same when stripped make the same product. -/
theorem bare_juxtaposed? {es es' : List Expr} (h : es.map Expr.bare = es'.map Expr.bare) :
    (juxtaposed? es).map Expr.bare = (juxtaposed? es').map Expr.bare := by
  have hlength : es.length = es'.length := by simpa using congrArg List.length h
  -- one factor stays as it is, several make a product
  match es, es', h, hlength with
  | [], [], _, _ => rfl
  | [e], [e'], h, _ => simpa [juxtaposed?] using h
  | e :: second :: es, e' :: second' :: es', h, _ => simpa [juxtaposed?, apply] using h

end Symbolic.Expr
