import Symbolic.Expr.Atom
import Symbolic.Operator.Standard
import Symbolic.Proofs.Locations.Enclosing

/-!
# Groups under a flat head

Making a node with a flat head splices one level only. That is enough: a group that was made this
way has nothing left to splice, so however the arguments of a flat head are grouped, the node that
comes out has just the leaves as its children. An open node with the same head is no leaf, but one
in brackets of its own is.

## Key results

- `contribution_tree`, `tree_group`: a group contributes its leaves, and the node of a group has
  them as its children
- `flattened_make`, `Assembled.flattened`: what is made has no open child under its own flat head
- `tree_group_and_flattened`: groups and trees that are made, in any table
-/

namespace Symbolic

namespace Expr

variable {table : OperatorTable} {head : String} {e : Expr}

/-- The arguments of a flat head are what each of them contributes. -/
theorem arguments_of_isFlat (hflat : table.isFlat head = true) (args : List Expr) :
    arguments table head args = args.flatMap (contribution head) := by
  rw [arguments, if_pos hflat]

/-- A head that is not flat keeps its arguments. -/
theorem make_of_not_isFlat (hflat : table.isFlat head = false) (args : List Expr)
    (loc : Location) : make table head args loc = node (symbol head loc) args false loc := by
  rw [make, arguments, if_neg (by simp [hflat])]

/-- A node that was just made is open, so it contributes its children. -/
theorem contribution_make (args : List Expr) (loc : Location) :
    contribution head (make table head args loc) = arguments table head args := by
  have hopen : (make table head args loc).isOpenNode head = true := by
    simp [isOpenNode, make, headName?, symbolName?, isParenthesized]
  rw [contribution, if_pos hopen]
  rfl

/-- What is no open node of the head contributes itself. -/
theorem contribution_of_not_isOpenNode (h : e.isOpenNode head = false) :
    contribution head e = [e] := by
  rw [contribution, if_neg (by simp [h])]

/-- A child is one of the inner trees. -/
theorem mem_inner_of_mem_children {child : Expr} (h : child ∈ e.children) : child ∈ e.inner := by
  cases e with
  | node => exact List.mem_cons_of_mem _ h
  | _ => cases h

/-- A leaf has no inner trees. -/
theorem inner_of_leaf {t : Token} (h : leaf t = .ok e) : e.inner = [] := by
  unfold leaf at h
  split at h
  · cases h
    rfl
  · unfold literal at h
    split at h
    · cases h
      rfl
    · cases h
  · cases h
    rfl
  · cases h
    rfl
  · cases h

end Expr

open Symbolic.Expr

/-! ## Groups -/

/-- A tree of groups with expressions for leaves. Each group has a location of its own. -/
inductive Grouping where
  | leaf (e : Expr)
  | group (members : List Grouping) (loc : Location)

namespace Grouping

mutual

/-- The leaves from left to right. -/
def leaves : Grouping → List Expr
  | .leaf e => [e]
  | .group members _ => allLeaves members

/-- The leaves of all groups in order. -/
def allLeaves : List Grouping → List Expr
  | [] => []
  | g :: gs => g.leaves ++ allLeaves gs

end

mutual

/-- What comes out when each group is made a node with the named head. -/
def tree (table : OperatorTable) (head : String) : Grouping → Expr
  | .leaf e => e
  | .group members loc => make table head (allTrees table head members) loc

/-- What comes out of all groups in order. -/
def allTrees (table : OperatorTable) (head : String) : List Grouping → List Expr
  | [] => []
  | g :: gs => g.tree table head :: allTrees table head gs

end

variable {table : OperatorTable} {head : String}

-- induction on the groups: the one level that is spliced holds what the levels below have spliced
mutual

/-- To a node with the same head a group contributes its leaves. -/
theorem contribution_tree (hflat : table.isFlat head = true) : ∀ g : Grouping,
    (∀ e ∈ g.leaves, e.isOpenNode head = false) →
    contribution head (g.tree table head) = g.leaves
  | .leaf e, hleaves => by
    have hnot : e.isOpenNode head = false := hleaves e List.mem_cons_self
    rw [tree, contribution_of_not_isOpenNode hnot, leaves]
  | .group members loc, hleaves => by
    rw [leaves] at hleaves ⊢
    rw [tree, contribution_make, arguments_of_isFlat hflat]
    exact flatMap_contribution_allTrees hflat members hleaves

/-- So do several groups, one after the other. -/
theorem flatMap_contribution_allTrees (hflat : table.isFlat head = true) : ∀ gs : List Grouping,
    (∀ e ∈ allLeaves gs, e.isOpenNode head = false) →
    (allTrees table head gs).flatMap (contribution head) = allLeaves gs
  | [], _ => rfl
  | g :: gs, hleaves => by
    rw [allLeaves] at hleaves ⊢
    have hfirst := contribution_tree hflat g fun e he => hleaves e (List.mem_append_left _ he)
    have hafter := flatMap_contribution_allTrees hflat gs fun e he =>
      hleaves e (List.mem_append_right _ he)
    rw [allTrees, List.flatMap_cons, hfirst, hafter]

end

/-- The node of a group has the leaves as its children, in order. -/
theorem tree_group (hflat : table.isFlat head = true) {members : List Grouping}
    (hleaves : ∀ e ∈ allLeaves members, e.isOpenNode head = false) (loc : Location) :
    (group members loc).tree table head =
      .node (.symbol head loc) (allLeaves members) false loc := by
  rw [tree, make, arguments_of_isFlat hflat, flatMap_contribution_allTrees hflat members hleaves]

end Grouping

/-! ## Trees that are made -/

/-- No part of the tree is a node with a flat head that has an open child with the same head. -/
def Flattened (table : OperatorTable) (e : Expr) : Prop :=
  ∀ part ∈ e.parts, ∀ head, table.isFlat head = true → part.headName? = some head →
    ∀ child ∈ part.children, child.isOpenNode head = false

/-- Trees that are put together from tokens, integers and symbols, by making nodes and by putting
    trees in brackets. -/
inductive Assembled (table : OperatorTable) : Expr → Prop where
  | leaf {t : Token} {e : Expr} (read : leaf t = .ok e) : Assembled table e
  | integer (n : Int) (loc : Location) : Assembled table (integer n loc)
  | symbol (name : String) (loc : Location) : Assembled table (symbol name loc)
  | make (head : String) {args : List Expr} (loc : Location)
      (assembled : ∀ e ∈ args, Assembled table e) : Assembled table (make table head args loc)
  | parenthesize {e : Expr} (assembled : Assembled table e) : Assembled table e.parenthesize

section Flattened

variable {table : OperatorTable} {e : Expr}

/-- What has no inner trees is flattened. -/
theorem flattened_of_inner_eq_nil (h : e.inner = []) : Flattened table e := by
  cases e with
  | node => cases h
  | _ =>
    intro part hpart head _ hhead
    rw [List.mem_singleton.mp hpart] at hhead
    cases hhead

/-- A node is flattened if its parts are and none of its children could be spliced. -/
theorem flattened_node {head : Expr} {children : List Expr} {parenthesized : Bool}
    {loc : Location} (hhead : Flattened table head)
    (hchildren : ∀ child ∈ children, Flattened table child)
    (hopen : ∀ name, table.isFlat name = true → head.symbolName? = some name →
      ∀ child ∈ children, child.isOpenNode name = false) :
    Flattened table (.node head children parenthesized loc) := by
  intro part hpart
  rcases mem_parts_node.mp hpart with rfl | hpart | ⟨child, hchild, hpart⟩
  · exact hopen
  · exact hhead part hpart
  · exact hchildren child hchild part hpart

/-- The inner trees of a flattened tree are flattened. -/
theorem Flattened.inner (h : Flattened table e) {part : Expr} (hpart : part ∈ e.inner) :
    Flattened table part :=
  fun part' hpart' => h part' (mem_parts_of_mem_inner hpart hpart')

/-- What a flattened argument contributes is flattened, and there is no open node with the head
    among it. -/
theorem Flattened.contribution (h : Flattened table e) {head : String}
    (hflat : table.isFlat head = true) {child : Expr} (hchild : child ∈ contribution head e) :
    Flattened table child ∧ child.isOpenNode head = false := by
  cases hopen : e.isOpenNode head with
  | true =>
    -- the argument is spliced, and being flattened it has no open child with the head
    rw [Expr.contribution, if_pos hopen] at hchild
    have hhead : e.headName? = some head := by
      rw [isOpenNode, Bool.and_eq_true, beq_iff_eq] at hopen
      exact hopen.1
    exact ⟨h.inner (mem_inner_of_mem_children hchild),
      h e (mem_parts_self e) head hflat hhead child hchild⟩
  | false =>
    rw [contribution_of_not_isOpenNode hopen, List.mem_singleton] at hchild
    subst hchild
    exact ⟨h, hopen⟩

/-- A node of flattened arguments is flattened. -/
theorem flattened_make (head : String) {args : List Expr} (loc : Location)
    (hargs : ∀ e ∈ args, Flattened table e) : Flattened table (make table head args loc) := by
  have hhead : Flattened table (symbol head loc) := flattened_of_inner_eq_nil rfl
  cases hflat : table.isFlat head with
  | true =>
    -- the arguments are the spliced children, none of them open under the head
    have hall : ∀ child ∈ arguments table head args,
        Flattened table child ∧ child.isOpenNode head = false := by
      rw [arguments_of_isFlat hflat]
      intro child hchild
      obtain ⟨e, he, hchild⟩ := List.mem_flatMap.mp hchild
      exact (hargs e he).contribution hflat hchild
    refine flattened_node hhead (fun child hchild => (hall child hchild).1) ?_
    intro name _ hname child hchild
    obtain rfl : head = name := Option.some.inj hname
    exact (hall child hchild).2
  | false =>
    -- a head that is not flat has nothing to splice
    rw [make_of_not_isFlat hflat]
    refine flattened_node hhead hargs ?_
    intro name hname hsymbol
    obtain rfl : head = name := Option.some.inj hsymbol
    cases hflat.symm.trans hname

/-- Brackets around a node do not change what is in it. -/
theorem Flattened.parenthesize (h : Flattened table e) : Flattened table e.parenthesize := by
  cases e with
  | node head children parenthesized loc =>
    have hchildren : ∀ child ∈ children, Flattened table child :=
      fun child hchild => h.inner (List.mem_cons_of_mem _ hchild)
    exact flattened_node (h.inner List.mem_cons_self) hchildren (h _ (mem_parts_self _))
  | _ => exact h

/-- Every tree that is put together step by step is flattened. -/
theorem Assembled.flattened (h : Assembled table e) : Flattened table e := by
  induction h with
  | leaf read => exact flattened_of_inner_eq_nil (inner_of_leaf read)
  | integer => exact flattened_of_inner_eq_nil rfl
  | symbol => exact flattened_of_inner_eq_nil rfl
  | make head loc _ ih => exact flattened_make head loc ih
  | parenthesize _ ih => exact ih.parenthesize

end Flattened

/-! ## Any grouping, and any steps -/

open Grouping in
/-- Under a flat head the children are the leaves in order, whatever the groups are; under another
    head the arguments are kept. So no tree that is put together by making nodes has an open child
    with the head of a flat node. -/
theorem tree_group_and_flattened (table : OperatorTable) :
    (∀ (head : String) (members : List Grouping) (loc : Location), table.isFlat head = true →
      (∀ e ∈ allLeaves members, e.isOpenNode head = false) →
        (group members loc).tree table head =
          .node (.symbol head loc) (allLeaves members) false loc) ∧
      (∀ (head : String) (args : List Expr) (loc : Location), table.isFlat head = false →
        make table head args loc = .node (.symbol head loc) args false loc) ∧
      ∀ e, Assembled table e → Flattened table e := by
  refine ⟨?_, ?_, fun e he => he.flattened⟩
  · intro head members loc hflat hleaves
    exact tree_group hflat hleaves loc
  · intro head args loc hflat
    exact make_of_not_isFlat hflat args loc

/-- The sum of `c` and `d` in brackets of its own. -/
def bracketedSum : Expr :=
  .parenthesize (make .standard "Plus" [.symbol "c" ⟨4, 5⟩, .symbol "d" ⟨6, 7⟩] ⟨4, 7⟩)

/-- A group of `a` and nothing, the sum in brackets, and a group of a group of `b`. -/
def mixedMembers : List Grouping :=
  [.group [.leaf (.symbol "a" ⟨0, 1⟩), .group [] ⟨1, 1⟩] ⟨0, 1⟩, .leaf bracketedSum,
    .group [.group [.leaf (.symbol "b" ⟨9, 10⟩)] ⟨9, 10⟩] ⟨9, 10⟩]

theorem tree_group_mixedMembers :
    OperatorTable.standard.isFlat "Plus" = true ∧
      (∀ e ∈ Grouping.allLeaves mixedMembers, e.isOpenNode "Plus" = false) ∧
      (Grouping.group mixedMembers ⟨0, 10⟩).tree .standard "Plus" =
        .node (.symbol "Plus" ⟨0, 10⟩)
          [.symbol "a" ⟨0, 1⟩, bracketedSum, .symbol "b" ⟨9, 10⟩] false ⟨0, 10⟩ ∧
      OperatorTable.standard.isFlat "Power" = false ∧
      make .standard "Power" [bracketedSum, bracketedSum] ⟨4, 7⟩ =
        .node (.symbol "Power" ⟨4, 7⟩) [bracketedSum, bracketedSum] false ⟨4, 7⟩ ∧
      Assembled .standard bracketedSum ∧ Flattened .standard bracketedSum := by
  obtain ⟨hgroup, hkept, hflattened⟩ := tree_group_and_flattened .standard
  have hplus : OperatorTable.standard.isFlat "Plus" = true := by
    decide
  have hpower : OperatorTable.standard.isFlat "Power" = false := by
    decide
  have hleaves : ∀ e ∈ Grouping.allLeaves mixedMembers, e.isOpenNode "Plus" = false := by
    decide +kernel
  -- the sum in parentheses is itself assembled from its leaves
  have hassembled : Assembled .standard bracketedSum := by
    refine .parenthesize (.make "Plus" ⟨4, 7⟩ ?_)
    rintro _ (- | ⟨_, - | ⟨_, ⟨⟩⟩⟩)
    · exact .symbol "c" ⟨4, 5⟩
    · exact .symbol "d" ⟨6, 7⟩
  exact ⟨hplus, hleaves, hgroup "Plus" mixedMembers ⟨0, 10⟩ hplus hleaves, hpower,
    hkept "Power" [bracketedSum, bracketedSum] ⟨4, 7⟩ hpower, hassembled, hflattened _ hassembled⟩

end Symbolic
