import Symbolic.Proofs.Lockstep.Balance

/-!
# What symbols are read from

Every rule but a few makes a node. A symbol is read from the token of a symbol, which may stand in
parentheses and have plus signs before it; nothing that extends an expression makes a symbol of it.

## Key results

- `gives_prefixed`, `gives_trailing`: the forms that make no symbols
- `iterate_trailing_symbol`: a symbol has not been extended
-/

namespace Symbolic

/-- The expression is something else than a symbol. -/
def Expr.IsNoSymbol (e : Expr) : Prop :=
  e.symbolName? = none

/-- The negative of a tree is no symbol. -/
theorem Expr.isNoSymbol_negate (table : OperatorTable) (head : String) (e : Expr)
    (sign loc : Location) : (Expr.negate table head e sign loc).IsNoSymbol := by
  unfold Expr.negate
  split
  · split <;> rfl
  · rfl

/-- A comparison is no symbol. -/
theorem Expr.isNoSymbol_compare (table : OperatorTable) (lhs rhs : Expr) (op : String)
    (sign loc : Location) : (Expr.compare table lhs op sign rhs loc).IsNoSymbol := by
  unfold Expr.compare
  split
  · split
    · rfl
    · split <;> rfl
  · rfl

namespace Reader

open Parse

variable {expr expr' : Precedence → Parse Expr} {table : OperatorTable} {lhs e w : Expr}
  {s s' s₁ : State} {α β : Type} {op : Operator} {p : Precedence}

/-! ## Values -/

/-- Whatever the step succeeds with is of the kind. -/
def Gives (Q : α → Prop) (m : Parse α) : Prop :=
  ∀ s v s', m s = .ok v s' → Q v

namespace Gives

variable {Q : α → Prop} {m : Parse α}

/-- A value at hand. -/
theorem pure {a : α} (h : Q a) : Gives Q (pure a) := by
  intro s v s' hm
  cases hm
  exact h

/-- What a step gives is what its last part gives. -/
theorem bind {m : Parse β} {f : β → Parse α} (h : ∀ b, Gives Q (f b)) : Gives Q (m >>= f) := by
  intro s v s' hm
  obtain ⟨b, s₁, -, hf⟩ := exists_of_bind_ok hm
  exact h b s₁ v s' hf

/-- A step that fails gives nothing. -/
theorem missing (kind : TokenKind) : Gives Q (missing kind) :=
  fun _ _ _ hm => nomatch hm

/-- A mapped step gives mapped values. -/
theorem map {m : Parse β} {f : β → α} (h : Gives (fun b => Q (f b)) m) : Gives Q (f <$> m) := by
  rw [map_eq_pure_bind]
  intro s v s' hm
  obtain ⟨b, s₁, hb, hm⟩ := exists_of_bind_ok hm
  cases hm
  exact h s b _ hb

end Gives

/-! ## Leading forms -/

/-- A span is no symbol. -/
theorem gives_spanFrom (start : Expr) :
    Gives Expr.IsNoSymbol (spanFrom .standard expr start op) := by
  unfold spanFrom
  refine .bind fun sign => .bind fun isEnd => ?_
  split
  · exact .pure rfl
  · refine .bind fun stop => .bind fun step? => ?_
    split <;> exact .pure rfl

/-- A request for information is none. -/
theorem gives_information : Gives Expr.IsNoSymbol (information .standard expr op) := by
  unfold information
  refine .bind fun sign => .bind fun first => .bind fun operand => ?_
  dsimp only
  split
  · exact .bind fun _ => .pure rfl
  · exact .pure rfl

/-- Nor is a prefix operator with its operands, a plus sign apart. -/
theorem gives_prefixed (hop : op.kind ≠ .plus) :
    Gives Expr.IsNoSymbol (prefixed .standard expr op) := by
  unfold prefixed
  split
  · exact .bind fun _ => .bind fun _ => .pure (Expr.isNoSymbol_negate ..)
  · contradiction
  · exact gives_information
  · exact gives_information
  · exact .bind fun _ => .bind fun _ => .pure rfl
  · exact .bind fun _ => .bind fun _ => .bind fun _ => .bind fun _ => .pure rfl
  · exact .bind fun _ => gives_spanFrom _
  · exact .bind fun _ => .bind fun _ => .pure rfl

/-- Nor is what stands in brackets that make a node. -/
theorem gives_bracketed (head : String) (closer : TokenKind) :
    Gives Expr.IsNoSymbol (bracketed .standard expr head closer) :=
  .bind fun _ => .bind fun _ => .bind fun _ => .pure rfl

/-! ## Trailing forms -/

/-- What a turn goes on from is no symbol. -/
def GoesOn : Turn Expr Expr → Prop
  | .again e => e.IsNoSymbol
  | .done _ => True

/-- A trailing form that is no symbol goes on. -/
theorem Gives.again {m : Parse Expr} (h : Gives Expr.IsNoSymbol m) :
    Gives GoesOn (Turn.again <$> m) :=
  .map h

/-- A call and a part are no symbols. -/
theorem gives_callOrPart : Gives Expr.IsNoSymbol (callOrPart .standard expr lhs op) := by
  unfold callOrPart
  refine .bind fun _ => .bind fun token => ?_
  split
  · exact .bind fun _ => .bind fun _ => .bind fun _ => .bind fun _ => .pure rfl
  · exact .bind fun _ => .bind fun _ => .pure rfl

/-- Nor is a pure function. -/
theorem gives_pureFunction : Gives Expr.IsNoSymbol (pureFunction .standard expr lhs op) := by
  unfold pureFunction
  refine .bind fun token => .bind fun sign => ?_
  split
  · exact .pure rfl
  · exact .bind fun _ => .pure rfl

/-- Nor is a compound expression. -/
theorem gives_compound : Gives Expr.IsNoSymbol (compound .standard expr lhs op) := by
  unfold compound
  refine .bind fun sign => .bind fun isEnd => ?_
  dsimp only
  split <;> exact .bind fun rhs? => .pure rfl

/-- Nor is a tagged assignment. -/
theorem gives_tagSet : Gives Expr.IsNoSymbol (tagSet .standard expr lhs op) := by
  unfold tagSet
  refine .bind fun _ => .bind fun pattern => .bind fun token => ?_
  split
  · exact .missing _
  refine .bind fun sign => ?_
  split
  · exact .pure rfl
  · exact .bind fun _ => .pure rfl

/-- Nor is the node of an infix operator. -/
theorem gives_infixedNode : Gives Expr.IsNoSymbol (infixedNode .standard expr lhs op) := by
  unfold infixedNode
  split
  · exact .bind fun _ => .bind fun _ => .bind fun _ => .bind fun _ => .pure rfl
  · exact .bind fun _ => .bind fun _ => .pure rfl

/-- Nor is a derivative. -/
theorem gives_derivative : Gives Expr.IsNoSymbol (derivative .standard lhs op) := by
  unfold derivative
  exact .bind fun _ => .bind fun _ => .pure rfl

/-- Nor is a message. -/
theorem gives_messageName : Gives Expr.IsNoSymbol (messageName .standard lhs op) := by
  unfold messageName
  exact .bind fun _ => .pure rfl

/-- An operand that is extended is no symbol any more. -/
theorem gives_extended (kind : TokenKind) :
    Gives GoesOn (extended .standard expr lhs op kind) := by
  unfold extended
  split
  · exact .again gives_messageName
  · exact .again gives_callOrPart
  · exact .again gives_derivative
  · exact .again (.bind fun _ => .bind fun _ => .pure rfl)
  · exact .again (.bind fun _ => .bind fun _ => .pure rfl)
  -- the six comparisons share one rule
  iterate 6 exact .again (.bind fun _ => .bind fun _ => .pure (Expr.isNoSymbol_compare ..))
  -- three ways of applying one operand to another
  iterate 2 exact .again (.bind fun _ => .bind fun _ => .pure rfl)
  · exact .again (.bind fun _ => .bind fun _ => .bind fun _ => .bind fun _ => .pure rfl)
  · exact .again (.bind fun _ => .bind fun _ => .pure rfl)
  · exact .again gives_pureFunction
  · exact .again gives_compound
  · unfold trailingSpan
    split
    · exact .pure trivial
    · refine fun s v s' hm => ?_
      obtain ⟨e, s₁, he, hm⟩ := exists_of_bind_ok hm
      cases hm
      exact gives_spanFrom lhs s e _ he
  · exact .again gives_tagSet
  split
  · exact .again gives_infixedNode
  · exact .again (.bind fun _ => .pure rfl)
  · exact .pure trivial
  · exact .pure trivial

/-- What goes on behind an operand makes it no symbol. -/
theorem gives_trailing : Gives GoesOn (trailing .standard expr p lhs) := by
  unfold trailing
  refine .bind fun token => ?_
  split
  · -- another factor makes a product
    unfold juxtaposition
    refine .bind fun token => ?_
    split
    · exact .pure trivial
    split
    · exact .pure trivial
    · exact .bind fun _ => .pure rfl
  split
  · -- a colon makes a pattern or a default
    unfold colon
    split
    · exact .pure trivial
    split
    · exact .pure trivial
    · exact .bind fun _ => .bind fun _ => .pure rfl
  split
  · exact .pure trivial
  · exact gives_extended _

/-! ## Symbols -/

/-- Once extended, an expression is no symbol any more. -/
theorem isNoSymbol_of_iterate (h : iterate (trailing .standard expr p) e s = .ok w s')
    (he : e.IsNoSymbol) : w.IsNoSymbol := by
  -- induction on the tokens that are left, one form at a time
  induction hn : s.rest.length using Nat.strongRecOn generalizing e s with
  | _ n ih =>
    subst hn
    rw [iterate] at h
    split at h
    · cases h
    · rename_i hdone
      cases h
      obtain ⟨-, rfl, -⟩ := trailing_done_iff.mp hdone
      exact he
    · rename_i hagain
      split at h
      · rename_i hlt
        exact ih _ hlt h (gives_trailing s _ _ hagain) rfl
      · cases h

/-- A symbol that an expression is read as has not been extended. -/
theorem iterate_trailing_symbol (h : iterate (trailing .standard expr p) lhs s = .ok w s')
    (hw : ¬w.IsNoSymbol) :
    w = lhs ∧ s' = s ∧ trailing .standard expr p lhs s = .ok (.done w) s' := by
  rw [iterate] at h
  split at h
  · cases h
  · rename_i hdone
    cases h
    obtain ⟨-, rfl, rfl⟩ := trailing_done_iff.mp hdone
    exact ⟨rfl, rfl, hdone⟩
  · rename_i hagain
    split at h
    · -- once something was read behind the symbol, the result is no symbol any more
      exact absurd (isNoSymbol_of_iterate h (gives_trailing s _ _ hagain)) hw
    · cases h

end Reader

end Symbolic
