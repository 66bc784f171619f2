import Mathlib.Data.List.Basic
import Symbolic.Proofs.Trees.Built

/-!
# Locations around locations

A node is located around its head and its children. Rules make nodes at unions of locations that
they know to be in order, splice the children of one node into another, and move trees to larger
locations: all of this keeps the parts of a tree within it. The one exception is a reciprocal, which
is located at its base and has its sign before it.

## Key results

- `Encloses`, `Within`: locations around others, and locations between two offsets
- `Nests`, `Fits`: trees whose nodes are located around their parts
- `fits_make`, `fits_negate`, `fits_compare`, `fits_of_juxtaposed?`: trees that rules make
-/

namespace Symbolic

/-! ## Locations -/

namespace Location

/-- The second location is within the first one. -/
structure Encloses (outer inner : Location) : Prop where
  start : outer.start ≤ inner.start
  stop : inner.stop ≤ outer.stop

instance (outer inner : Location) : Decidable (outer.Encloses inner) :=
  decidable_of_iff (outer.start ≤ inner.start ∧ inner.stop ≤ outer.stop)
    ⟨fun h => ⟨h.1, h.2⟩, fun h => ⟨h.1, h.2⟩⟩

/-- The ends of the location are in order, and between two offsets. -/
structure Within (lo hi : Nat) (loc : Location) : Prop where
  start : lo ≤ loc.start.toNat
  ordered : loc.start.toNat ≤ loc.stop.toNat
  stop : loc.stop.toNat ≤ hi

variable {a b c loc outer inner : Location} {lo hi m n lo' hi' : Nat}

/-- A location encloses itself. -/
theorem Encloses.refl (loc : Location) : loc.Encloses loc :=
  ⟨UInt32.le_refl _, UInt32.le_refl _⟩

/-- What a location encloses is enclosed by all that enclose it. -/
theorem Encloses.trans (h : a.Encloses b) (h' : b.Encloses c) : a.Encloses c :=
  ⟨UInt32.le_trans h.start h'.start, UInt32.le_trans h'.stop h.stop⟩

/-- A union starts where the first of the two does. -/
theorem toNat_start_union (a b : Location) :
    (a.union b).start.toNat = min a.start.toNat b.start.toNat := by
  show (if a.start ≤ b.start then a.start else b.start).toNat = _
  split <;> rename_i hle <;> rw [UInt32.le_iff_toNat_le] at hle <;> omega

/-- It stops where the last of the two does. -/
theorem toNat_stop_union (a b : Location) :
    (a.union b).stop.toNat = max a.stop.toNat b.stop.toNat := by
  show (if a.stop ≤ b.stop then b.stop else a.stop).toNat = _
  split <;> rename_i hle <;> rw [UInt32.le_iff_toNat_le] at hle <;> omega

/-- A location encloses another if it starts no later and stops no earlier. -/
theorem encloses_iff_toNat : outer.Encloses inner ↔
    outer.start.toNat ≤ inner.start.toNat ∧ inner.stop.toNat ≤ outer.stop.toNat :=
  ⟨fun h => ⟨h.start, h.stop⟩, fun h => ⟨h.1, h.2⟩⟩

/-- A union encloses the one location. -/
theorem encloses_union_left (a b : Location) : (a.union b).Encloses a := by
  rw [encloses_iff_toNat, toNat_start_union, toNat_stop_union]
  omega

/-- It encloses the other, too. -/
theorem encloses_union_right (a b : Location) : (a.union b).Encloses b := by
  rw [encloses_iff_toNat, toNat_start_union, toNat_stop_union]
  omega

/-- What encloses two locations encloses their union. -/
theorem Encloses.union (h : a.Encloses b) (h' : a.Encloses c) : a.Encloses (b.union c) := by
  rw [encloses_iff_toNat] at h h' ⊢
  rw [toNat_start_union, toNat_stop_union]
  omega

namespace Within

/-- Between two offsets there is a location only if they are in order. -/
theorem le (h : loc.Within lo hi) : lo ≤ hi :=
  Nat.le_trans h.start (Nat.le_trans h.ordered h.stop)

/-- A location that is between two offsets is between any that are further apart. -/
theorem mono (h : loc.Within lo hi) (hlo : lo' ≤ lo) (hhi : hi ≤ hi') : loc.Within lo' hi' :=
  ⟨Nat.le_trans hlo h.start, h.ordered, Nat.le_trans h.stop hhi⟩

/-- The union of two locations between two offsets is between them. -/
theorem union (ha : a.Within lo hi) (hb : b.Within lo hi) : (a.union b).Within lo hi := by
  obtain ⟨ha₁, ha₂, ha₃⟩ := ha
  obtain ⟨hb₁, hb₂, hb₃⟩ := hb
  constructor <;> simp only [toNat_start_union, toNat_stop_union] <;> omega

/-- What is between two locations is within their union. -/
theorem encloses_union (hb : b.Within m n) (ha : a.Within lo m) (hc : c.Within n hi) :
    (a.union c).Encloses b := by
  obtain ⟨ha₁, ha₂, ha₃⟩ := ha
  obtain ⟨hb₁, hb₂, hb₃⟩ := hb
  obtain ⟨hc₁, hc₂, hc₃⟩ := hc
  rw [encloses_iff_toNat, toNat_start_union, toNat_stop_union]
  omega

/-- So is what is behind the first one, and not longer than the second one. -/
theorem encloses_union_of_le (hb : b.Within m hi) (ha : a.Within lo m) (hle : b.stop ≤ c.stop) :
    (a.union c).Encloses b := by
  obtain ⟨ha₁, ha₂, ha₃⟩ := ha
  obtain ⟨hb₁, hb₂, hb₃⟩ := hb
  rw [UInt32.le_iff_toNat_le] at hle
  rw [encloses_iff_toNat, toNat_start_union, toNat_stop_union]
  omega

/-- Two locations in order have a union. -/
theorem append (ha : a.Within lo m) (hb : b.Within m hi) : (a.union b).Within lo hi :=
  (ha.mono (Nat.le_refl _) hb.le).union (hb.mono ha.le (Nat.le_refl _))

end Within

end Location

open Location

/-! ## Trees -/

namespace Expr

/-- The head and the children of a node. -/
def inner : Expr → List Expr
  | .node head children _ _ => head :: children
  | _ => []

mutual

/-- The tree and all its parts, the heads of nodes included. -/
def parts : Expr → List Expr
  | .node head children parenthesized loc =>
    .node head children parenthesized loc :: (parts head ++ allParts children)
  | e => [e]

/-- The trees and all their parts. -/
def allParts : List Expr → List Expr
  | [] => []
  | e :: es => parts e ++ allParts es

end

/-- The tree is located around its head and its children, if it is a node. -/
def Surrounds (e : Expr) : Prop :=
  ∀ part ∈ e.inner, e.loc.Encloses part.loc

instance (e : Expr) : Decidable e.Surrounds :=
  inferInstanceAs (Decidable (∀ part ∈ e.inner, e.loc.Encloses part.loc))

/-- The reciprocal that a sign makes of its right operand. -/
def reciprocal (base : Expr) (sign : Location) : Expr :=
  .node (.symbol "Power" base.loc) [base, .integer (-1) sign] false base.loc

variable {isSign : Location → Prop} {e lhs rhs operand : Expr} {es children : List Expr}
  {table : OperatorTable} {head : String} {loc sign : Location} {lo hi m n lo' hi' : Nat}

/-- The tree is located around its head and its children, or it is a reciprocal, whose sign stands
    before its base. -/
def Nests (isSign : Location → Prop) (e : Expr) : Prop :=
  ∀ part ∈ e.parts, part.Surrounds ∨ ∃ base sign, isSign sign ∧ sign.stop ≤ base.loc.start ∧
    part = reciprocal base sign

/-- The parts of several trees are those of each. -/
theorem mem_allParts {part : Expr} : part ∈ allParts es ↔ ∃ e ∈ es, part ∈ e.parts := by
  induction es with
  | nil => simp [allParts]
  | cons e es ih => simp [allParts, ih]

/-- The parts of a node are the node itself and the parts of its head and its children. -/
theorem mem_parts_node {head part : Expr} {parenthesized : Bool} :
    part ∈ (node head children parenthesized loc).parts ↔
      part = node head children parenthesized loc ∨ part ∈ head.parts ∨
        ∃ e ∈ children, part ∈ e.parts := by
  rw [parts, List.mem_cons, List.mem_append, mem_allParts]

/-- The parts of what is in a tree are parts of the tree. -/
theorem mem_parts_of_mem_inner {part part' : Expr} (h : part ∈ e.inner) (h' : part' ∈ part.parts) :
    part' ∈ e.parts := by
  cases e with
  | node head children parenthesized loc =>
    rw [mem_parts_node]
    rcases List.mem_cons.mp h with rfl | hmem
    · exact .inr (.inl h')
    · exact .inr (.inr ⟨part, hmem, h'⟩)
  | _ => cases h

/-- A tree without parts nests. -/
theorem nests_of_inner_eq_nil (h : e.inner = []) : e.Nests isSign := by
  cases e with
  | node => cases h
  | _ =>
    intro part hpart
    rw [List.mem_singleton.mp hpart]
    exact .inl (List.forall_mem_nil _)

/-- A node nests if it surrounds its parts, and they nest. -/
theorem nests_node {head : Expr} {parenthesized : Bool}
    (hnode : (node head children parenthesized loc).Surrounds) (hhead : head.Nests isSign)
    (hchildren : ∀ e ∈ children, e.Nests isSign) :
    (node head children parenthesized loc).Nests isSign := by
  intro part hpart
  rcases mem_parts_node.mp hpart with rfl | hpart | ⟨e, he, hpart⟩
  · exact .inl hnode
  · exact hhead part hpart
  · exact hchildren e he part hpart

/-- The parts of what nests nest. -/
theorem Nests.inner (h : e.Nests isSign) {part : Expr} (hpart : part ∈ e.inner) :
    part.Nests isSign :=
  fun part' hpart' => h part' (mem_parts_of_mem_inner hpart hpart')

/-- A tree is a part of itself. -/
theorem mem_parts_self (e : Expr) : e ∈ e.parts := by
  cases e <;> exact List.mem_cons_self

/-- A reciprocal nests if its base does, and if it stands behind the sign of a division. -/
theorem nests_reciprocal (h : e.Nests isSign) (hsign : isSign sign)
    (hle : sign.stop ≤ e.loc.start) : (reciprocal e sign).Nests isSign := by
  intro part hpart
  rw [reciprocal, mem_parts_node] at hpart
  rcases hpart with rfl | hpart | ⟨e', he', hpart⟩
  · exact .inr ⟨e, sign, hsign, hle, rfl⟩
  · exact nests_of_inner_eq_nil rfl part hpart
  · simp only [List.mem_cons, List.not_mem_nil, or_false] at he'
    rcases he' with rfl | rfl
    · exact h part hpart
    · exact nests_of_inner_eq_nil rfl part hpart

/-! ## Trees within locations -/

/-- The tree nests, and is located within the given location. -/
structure Inside (isSign : Location → Prop) (loc : Location) (e : Expr) : Prop where
  nests : e.Nests isSign
  encloses : loc.Encloses e.loc

/-- The tree nests, is located around its own parts, and is between two offsets. -/
structure Fits (isSign : Location → Prop) (lo hi : Nat) (e : Expr) : Prop where
  nests : e.Nests isSign
  surrounds : e.Surrounds
  within : e.loc.Within lo hi

/-- What is inside a location is inside all that enclose it. -/
theorem Inside.mono {outer : Location} (h : e.Inside isSign loc) (hloc : outer.Encloses loc) :
    e.Inside isSign outer :=
  ⟨h.nests, hloc.trans h.encloses⟩

/-- A symbol is inside what encloses its location. -/
theorem inside_symbol (name : String) (h : loc.Encloses sign) :
    (symbol name sign).Inside isSign loc :=
  ⟨nests_of_inner_eq_nil rfl, h⟩

/-- So is an integer. -/
theorem inside_integer (n : Int) (h : loc.Encloses sign) :
    (integer n sign).Inside isSign loc :=
  ⟨nests_of_inner_eq_nil rfl, h⟩

/-- Two trees are inside a location if each is. -/
theorem inside_pair (hlhs : lhs.Inside isSign loc) (hrhs : rhs.Inside isSign loc) :
    ∀ e ∈ [lhs, rhs], e.Inside isSign loc :=
  List.forall_mem_cons.mpr ⟨hlhs, List.forall_mem_singleton.mpr hrhs⟩

/-- A leaf fits where it is located. -/
theorem fits_of_inner_eq_nil (h : e.inner = []) (hloc : e.loc.Within lo hi) :
    e.Fits isSign lo hi where
  nests := nests_of_inner_eq_nil h
  surrounds _ hpart := absurd (h ▸ hpart) List.not_mem_nil
  within := hloc

namespace Fits

/-- Trees fit between offsets in order only. -/
theorem le (h : e.Fits isSign lo hi) : lo ≤ hi :=
  h.within.le

/-- A tree that fits between two offsets does so between any that are further apart. -/
theorem mono (h : e.Fits isSign lo hi) (hlo : lo' ≤ lo) (hhi : hi ≤ hi') :
    e.Fits isSign lo' hi' :=
  ⟨h.nests, h.surrounds, h.within.mono hlo hhi⟩

/-- A tree that fits is inside all that enclose it. -/
theorem inside (h : e.Fits isSign lo hi) (hloc : loc.Encloses e.loc) : e.Inside isSign loc :=
  ⟨h.nests, hloc⟩

/-- A tree that is moved to a location around it still has its parts within it. -/
theorem withLoc (h : e.Fits isSign lo' hi') (hloc : loc.Within lo hi)
    (hencloses : loc.Encloses e.loc) : (e.withLoc loc).Fits isSign lo hi := by
  cases e with
  | node head children parenthesized loc' =>
    have hsurrounds : (node head children parenthesized loc).Surrounds := fun part hpart =>
      hencloses.trans (h.surrounds part hpart)
    exact ⟨nests_node hsurrounds (h.nests.inner List.mem_cons_self)
      fun e he => h.nests.inner (List.mem_cons_of_mem _ he), hsurrounds, hloc⟩
  | _ => exact fits_of_inner_eq_nil rfl hloc

/-- A tree that fits does so in brackets. -/
theorem parenthesize (h : e.Fits isSign lo hi) : e.parenthesize.Fits isSign lo hi := by
  cases e with
  | node head children parenthesized loc =>
    have hsurrounds : (node head children true loc).Surrounds := h.surrounds
    exact ⟨nests_node hsurrounds (h.nests.inner List.mem_cons_self)
      fun e he => h.nests.inner (List.mem_cons_of_mem _ he), hsurrounds, h.within⟩
  | _ => exact h

end Fits

/-- A node fits where it is located if its head and its children are inside. -/
theorem fits_node {head : Expr} {parenthesized : Bool} (hloc : loc.Within lo hi)
    (hhead : head.Inside isSign loc) (hchildren : ∀ e ∈ children, e.Inside isSign loc) :
    (node head children parenthesized loc).Fits isSign lo hi := by
  have hsurrounds : (node head children parenthesized loc).Surrounds :=
    List.forall_mem_cons.mpr ⟨hhead.encloses, fun e he => (hchildren e he).encloses⟩
  exact ⟨nests_node hsurrounds hhead.nests fun e he => (hchildren e he).nests, hsurrounds, hloc⟩

/-! ## Trees that rules make -/

/-- What is negated is located where it is put, as a number or as a product. -/
theorem loc_negate (operand : Expr) : (negate table head operand sign loc).loc = loc := by
  unfold negate
  split
  · split <;> rfl
  · rfl

section Rules

variable (hpower : table.isFlat "Power" = false)
include hpower

/-- What is spliced into a node is within it, for reciprocals are not spliced. -/
theorem inside_of_mem_arguments (hes : ∀ e ∈ es, e.Inside isSign loc) :
    ∀ e ∈ arguments table head es, e.Inside isSign loc := by
  unfold arguments
  split
  case isFalse => exact hes
  rename_i hflat
  intro part hpart
  obtain ⟨e, he, hpart⟩ := List.mem_flatMap.mp hpart
  unfold contribution at hpart
  split at hpart
  case isFalse => exact List.mem_singleton.mp hpart ▸ hes e he
  rename_i hopen
  obtain ⟨hnests, hencloses⟩ := hes e he
  have hinner : part ∈ e.inner := by
    cases e with
    | node => exact List.mem_cons_of_mem _ hpart
    | _ => cases hpart
  rcases hnests e (mem_parts_self e) with hsurrounds | ⟨base, sign, -, -, rfl⟩
  · exact ⟨hnests.inner hinner, hencloses.trans (hsurrounds part hinner)⟩
  · -- the head of a reciprocal is not flat
    have hhead : "Power" = head := by
      simpa [isOpenNode, reciprocal, headName?, symbolName?, isParenthesized] using hopen
    rw [← hhead, hpower] at hflat
    cases hflat

/-- The node of trees that are inside its location fits. -/
theorem fits_make (hloc : loc.Within lo hi) (hes : ∀ e ∈ es, e.Inside isSign loc) :
    (make table head es loc).Fits isSign lo hi :=
  fits_node hloc (inside_symbol head (.refl loc)) (inside_of_mem_arguments hpower hes)

/-- A node over two trees, the second of which comes behind the first. -/
theorem fits_make_pair (hlhs : lhs.Fits isSign lo m) (hrhs : rhs.Fits isSign m hi) :
    (make table head [lhs, rhs] (lhs.loc.union rhs.loc)).Fits isSign lo hi :=
  fits_make hpower (hlhs.within.append hrhs.within)
    (inside_pair (hlhs.inside (encloses_union_left ..)) (hrhs.inside (encloses_union_right ..)))

/-- The negative of what fits behind its sign fits around both. -/
theorem fits_negate (hsign : sign.Within lo m) (h : operand.Fits isSign m hi) :
    (negate table head operand sign (sign.union operand.loc)).Fits isSign lo hi := by
  have hloc := hsign.append h.within
  have hmake : (make table head [integer (-1) sign, operand] (sign.union operand.loc)).Fits
      isSign lo hi :=
    fits_make hpower hloc (inside_pair (inside_integer _ (encloses_union_left ..))
      (h.inside (encloses_union_right ..)))
  unfold negate
  -- a number takes the sign up, and anything else becomes a factor
  split
  · split
    · exact hmake
    · exact fits_of_inner_eq_nil rfl hloc
  · exact hmake

/-- A comparison of what fits on both sides of its sign fits around all three. -/
theorem fits_compare {op : String} (hlhs : lhs.Fits isSign lo m) (hsign : sign.Within m n)
    (hrhs : rhs.Fits isSign n hi) :
    (compare table lhs op sign rhs (lhs.loc.union rhs.loc)).Fits isSign lo hi := by
  have hmid : m ≤ n := hsign.le
  have hloc : (lhs.loc.union rhs.loc).Within lo hi :=
    hlhs.within.append (hrhs.within.mono hmid (Nat.le_refl _))
  have hleft : ∀ part ∈ lhs.inner, part.Inside isSign (lhs.loc.union rhs.loc) := fun part hpart =>
    ⟨hlhs.nests.inner hpart, (encloses_union_left ..).trans (hlhs.surrounds part hpart)⟩
  have hnext : ∀ part ∈ [.symbol op sign, rhs], part.Inside isSign (lhs.loc.union rhs.loc) :=
    inside_pair (inside_symbol op (hsign.encloses_union hlhs.within hrhs.within))
      (hrhs.inside (encloses_union_right ..))
  have hmake : (make table op [lhs, rhs] (lhs.loc.union rhs.loc)).Fits isSign lo hi :=
    fits_make_pair hpower hlhs (hrhs.mono hmid (Nat.le_refl _))
  unfold compare
  split
  · rename_i head headLoc children lhsLoc
    obtain ⟨hhead, hchildren⟩ := List.forall_mem_cons.mp hleft
    split
    · -- the chain is an inequality already
      exact fits_node hloc hhead (List.forall_mem_append.mpr ⟨hchildren, hnext⟩)
    · split
      · -- it becomes one, with the head of the first comparison between the operands
        refine fits_make hpower hloc (List.forall_mem_append.mpr ⟨fun part hpart => ?_, hnext⟩)
        rcases mem_intersperse hpart with hmem | rfl
        · exact hchildren part hmem
        · exact hhead
      · exact hmake
  · exact hmake

end Rules

/-! ## Trees side by side -/

/-- The trees fit one behind the other between two offsets. -/
inductive InOrder (isSign : Location → Prop) : Nat → Nat → List Expr → Prop
  | nil {lo hi : Nat} (le : lo ≤ hi) : InOrder isSign lo hi []
  | cons {lo m hi : Nat} {e : Expr} {es : List Expr} (first : e.Fits isSign lo m)
      (rest : InOrder isSign m hi es) : InOrder isSign lo hi (e :: es)

namespace InOrder

/-- Trees in order have their offsets in order. -/
theorem le (h : InOrder isSign lo hi es) : lo ≤ hi := by
  induction h with
  | nil le => exact le
  | cons first _ ih => exact Nat.le_trans first.le ih

/-- Trees in order stay so with one more that fits behind them. -/
theorem concat (h : InOrder isSign lo m es) (he : e.Fits isSign m hi) :
    InOrder isSign lo hi (es ++ [e]) := by
  induction h with
  | nil le => exact .cons (he.mono le (Nat.le_refl _)) (.nil (Nat.le_refl _))
  | cons first _ ih => exact .cons first (ih he)

/-- Each of several trees in order fits between the offsets of all. -/
theorem fits_of_mem (h : InOrder isSign lo hi es) (he : e ∈ es) : e.Fits isSign lo hi := by
  induction h with
  | nil => cases he
  | cons first rest ih =>
    rcases List.mem_cons.mp he with rfl | he
    · exact first.mono (Nat.le_refl _) rest.le
    · exact (ih he).mono first.le (Nat.le_refl _)

/-- Trees in order are within the union of the first and the last of them. -/
theorem encloses (h : InOrder isSign lo hi (lhs :: (es ++ [rhs]))) :
    ∀ e ∈ lhs :: (es ++ [rhs]), (lhs.loc.union rhs.loc).Encloses e.loc := by
  cases h with
  | @cons _ m _ _ _ first rest =>
  -- every tree before the last one fits before that
  have hlast : ∀ {lo hi : Nat} {es : List Expr}, InOrder isSign lo hi (es ++ [rhs]) →
      ∀ e ∈ es, ∃ n, e.Fits isSign lo n ∧ rhs.Fits isSign n hi := by
    intro lo hi es h
    induction es generalizing lo with
    | nil => exact List.forall_mem_nil _
    | cons first es ih =>
      cases h with
      | cons hfirst hrest =>
      refine List.forall_mem_cons.mpr ⟨⟨_, hfirst, hrest.fits_of_mem (by simp)⟩, fun e he => ?_⟩
      obtain ⟨n, hn, hrhs⟩ := ih hrest e he
      exact ⟨n, hn.mono hfirst.le (Nat.le_refl _), hrhs⟩
  intro e he
  rcases List.mem_cons.mp he with rfl | he
  · exact encloses_union_left ..
  rcases List.mem_append.mp he with he | he
  · obtain ⟨n, hn, hrhs⟩ := hlast rest e he
    exact hn.within.encloses_union first.within hrhs.within
  · rw [List.mem_singleton.mp he]
    exact encloses_union_right ..

end InOrder

/-- A product of trees side by side is located from the first to the last of them. -/
theorem fits_of_juxtaposed? (h : InOrder isSign lo hi es) (he : juxtaposed? es = some e) :
    e.Fits isSign lo hi := by
  unfold juxtaposed? at he
  split at he
  · -- nothing makes no product, and one tree is no product
    cases he
  · cases he
    exact h.fits_of_mem (List.mem_singleton_self _)
  · -- a product reaches from its first factor to its last, and takes in all between
    rename_i first rest hne
    cases he
    obtain ⟨init, last, rfl⟩ := (List.eq_nil_or_concat' rest).resolve_left hne
    rw [List.getLast?_concat, Option.getD_some]
    have hfirst := h.fits_of_mem List.mem_cons_self
    have hlast := h.fits_of_mem (List.mem_cons_of_mem first (List.mem_append_right init
      (List.mem_singleton_self last)))
    exact fits_node (hfirst.within.union hlast.within) (inside_symbol _ (.refl _))
      fun e he => (h.fits_of_mem he).inside (h.encloses e he)

end Expr

end Symbolic
