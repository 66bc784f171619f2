import Symbolic.Location
import Symbolic.Number.Basic

/-! # Expressions

An expression is a symbol, a number, a string, or a node: a head applied to children. Every
expression has a location. A node also records whether it stands in brackets of its own, which
keeps it apart from an enclosing node of the same head. -/

namespace Symbolic

/-- A tree of nodes `head[children...]` over symbols, numbers and strings. -/
inductive Expr where
  | symbol (name : String) (loc : Location)
  | number (value : Number) (loc : Location)
  | string (value : String) (loc : Location)
  | node (head : Expr) (children : List Expr) (parenthesized : Bool) (loc : Location)
deriving Repr, Inhabited

namespace Expr

/-! ## Equality -/

mutual

/-- Whether two expressions are the same tree, locations included. -/
def same : Expr → Expr → Bool
  | .symbol name loc, .symbol name' loc' => name = name' && loc = loc'
  | .number value loc, .number value' loc' => value = value' && loc = loc'
  | .string value loc, .string value' loc' => value = value' && loc = loc'
  | .node head children parenthesized loc, .node head' children' parenthesized' loc' =>
    same head head' && sameAll children children' && parenthesized == parenthesized' && loc = loc'
  | _, _ => false

/-- Whether two lists hold the same trees in order. -/
def sameAll : List Expr → List Expr → Bool
  | [], [] => true
  | e :: es, e' :: es' => same e e' && sameAll es es'
  | _, _ => false

end

mutual

theorem same_iff_eq : ∀ e e' : Expr, same e e' = true ↔ e = e'
  | .symbol .., e' => by cases e' <;> simp [same]
  | .number .., e' => by cases e' <;> simp [same]
  | .string .., e' => by cases e' <;> simp [same]
  | .node head children .., e' => by
    cases e' with
    | node head' children' =>
      simp [same, same_iff_eq head head', sameAll_iff_eq children children', and_assoc]
    | _ => simp [same]

theorem sameAll_iff_eq : ∀ es es' : List Expr, sameAll es es' = true ↔ es = es'
  | [], es' => by cases es' <;> simp [sameAll]
  | e :: es, es' => by
    cases es' with
    | nil => simp [sameAll]
    | cons e' es' => simp [sameAll, same_iff_eq e e', sameAll_iff_eq es es']

end

instance : DecidableEq Expr := fun e e' =>
  decidable_of_iff (same e e' = true) (same_iff_eq e e')

/-! ## Parts -/

/-- Where the expression is. -/
def loc : Expr → Location
  | .symbol _ loc | .number _ loc | .string _ loc | .node _ _ _ loc => loc

/-- The expression moved to a location. Its parts stay where they are. -/
def withLoc (e : Expr) (loc : Location) : Expr :=
  match e with
  | .symbol name _ => .symbol name loc
  | .number value _ => .number value loc
  | .string value _ => .string value loc
  | .node head children parenthesized _ => .node head children parenthesized loc

/-- The name of a symbol. -/
def symbolName? : Expr → Option String
  | .symbol name _ => some name
  | _ => none

/-- The name of a node's head, if the head is a symbol. -/
def headName? : Expr → Option String
  | .node head _ _ _ => head.symbolName?
  | _ => none

/-- The children of a node. -/
def children : Expr → List Expr
  | .node _ children _ _ => children
  | _ => []

/-- Whether the expression is a node in brackets of its own. -/
def isParenthesized : Expr → Bool
  | .node _ _ parenthesized _ => parenthesized
  | _ => false

/-- Whether the expression is a node with the named head that is free to combine with a node
    of the same head around it. -/
def isOpenNode (head : String) (e : Expr) : Bool :=
  e.headName? == some head && !e.isParenthesized

/-- A node in brackets of its own. Atoms need none. -/
def parenthesize : Expr → Expr
  | .node head children _ loc => .node head children true loc
  | e => e

/-! ## Erasing locations -/

mutual

/-- The same tree with every location at the start of the text. -/
def eraseLocations : Expr → Expr
  | .symbol name _ => .symbol name .zero
  | .number value _ => .number value .zero
  | .string value _ => .string value .zero
  | .node head children parenthesized _ =>
    .node head.eraseLocations (eraseAllLocations children) parenthesized .zero

/-- The same trees with every location at the start of the text. -/
def eraseAllLocations : List Expr → List Expr
  | [] => []
  | e :: es => e.eraseLocations :: eraseAllLocations es

end

theorem eraseAllLocations_eq_map (es : List Expr) :
    eraseAllLocations es = es.map eraseLocations := by
  induction es with
  | nil => rfl
  | cons e es ih => simp [eraseAllLocations, ih]

end Expr

end Symbolic
