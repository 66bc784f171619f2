import Mathlib.Data.List.Forall2
import Symbolic.Expr.Atom
import Symbolic.Expr.Comparison
import Symbolic.Reader.Parse

/-!
# Data that are the same but for locations

Two trees are alike under a relation on locations if they have the same shape, names and numbers,
and their locations are related place by place. All that is made of like parts in the same way is
alike again: nothing but the place of a node depends on where its parts are.

## Key results

- `Located`: types of data with locations in them, and when two of these data are alike
- `Expr.Like`: like trees; `eraseLocations_eq_of_like`: they differ in nothing but locations
- `like_make`, `like_negate`, `like_compare`, `like_juxtaposed?`: trees made of like trees
- `like_atom`: the atoms of tokens that differ in nothing but their locations
-/

namespace Symbolic

variable {r : Location → Location → Prop}

/-! ## Located data -/

/-- Data with locations in them, or without any. Two of them are alike if they are the same but
    for locations, and the locations are related place by place. -/
class Located (α : Type) where
  Like : (Location → Location → Prop) → α → α → Prop
  like_self : ∀ {r : Location → Location → Prop}, (∀ loc, r loc loc) → ∀ a, Like r a a
  eq_of_like : ∀ {a a' : α}, Like Eq a a' → a = a'

namespace Located

instance : Located Location where
  Like r := r
  like_self h := h
  eq_of_like := id

instance : Located Unit where
  Like _ := Eq
  like_self _ _ := rfl
  eq_of_like := id

instance : Located Bool where
  Like _ := Eq
  like_self _ _ := rfl
  eq_of_like := id

instance : Located Nat where
  Like _ := Eq
  like_self _ _ := rfl
  eq_of_like := id

end Located

/-! ## Trees -/

/-- The same tree, with locations that are related place by place. -/
inductive Expr.Like (r : Location → Location → Prop) : Expr → Expr → Prop where
  | symbol {name : String} {loc loc' : Location} (hloc : r loc loc') :
      Like r (.symbol name loc) (.symbol name loc')
  | number {value : Number} {loc loc' : Location} (hloc : r loc loc') :
      Like r (.number value loc) (.number value loc')
  | string {value : String} {loc loc' : Location} (hloc : r loc loc') :
      Like r (.string value loc) (.string value loc')
  | node {head head' : Expr} {children children' : List Expr} {parenthesized : Bool}
      {loc loc' : Location} (hhead : Like r head head')
      (hchildren : List.Forall₂ (Like r) children children') (hloc : r loc loc') :
      Like r (.node head children parenthesized loc) (.node head' children' parenthesized loc')

namespace Expr

mutual

/-- A tree is like itself where every location is related to itself. -/
theorem like_self (h : ∀ loc, r loc loc) : ∀ e : Expr, Like r e e
  | .symbol .. => .symbol (h _)
  | .number .. => .number (h _)
  | .string .. => .string (h _)
  | .node head children .. => .node (like_self h head) (likeAll_self h children) (h _)

/-- So are several trees. -/
theorem likeAll_self (h : ∀ loc, r loc loc) : ∀ es : List Expr, List.Forall₂ (Like r) es es
  | [] => .nil
  | e :: es => .cons (like_self h e) (likeAll_self h es)

end

mutual

/-- Trees that are alike with the same locations are the same. -/
theorem eq_of_like : ∀ {e e' : Expr}, Like Eq e e' → e = e'
  | .symbol .., _, .symbol rfl => rfl
  | .number .., _, .number rfl => rfl
  | .string .., _, .string rfl => rfl
  | .node head children .., _, .node hhead hchildren rfl => by
    rw [eq_of_like hhead, eq_of_likeAll hchildren]

/-- So are several trees. -/
theorem eq_of_likeAll : ∀ {es es' : List Expr}, List.Forall₂ (Like Eq) es es' → es = es'
  | [], _, .nil => rfl
  | e :: es, _, .cons he hes => by rw [eq_of_like he, eq_of_likeAll hes]

end

mutual

/-- Trees that are alike are the same without their locations, whatever the relation. -/
theorem eraseLocations_eq_of_like :
    ∀ {e e' : Expr}, Like r e e' → e.eraseLocations = e'.eraseLocations
  | .symbol .., _, .symbol _ => rfl
  | .number .., _, .number _ => rfl
  | .string .., _, .string _ => rfl
  | .node head children .., _, .node hhead hchildren _ => by
    rw [eraseLocations, eraseLocations, eraseLocations_eq_of_like hhead,
      eraseAllLocations_eq_of_like hchildren]

/-- So are several trees. -/
theorem eraseAllLocations_eq_of_like :
    ∀ {es es' : List Expr}, List.Forall₂ (Like r) es es' →
      eraseAllLocations es = eraseAllLocations es'
  | [], _, .nil => rfl
  | e :: es, _, .cons he hes => by
    rw [eraseAllLocations, eraseAllLocations, eraseLocations_eq_of_like he,
      eraseAllLocations_eq_of_like hes]

end

end Expr

/-! ## Errors -/

/-- The same error about the same kind of token, at related locations. -/
inductive SyntaxError.Like (r : Location → Location → Prop) : SyntaxError → SyntaxError → Prop where
  | unexpectedToken {loc loc' : Location} {found : TokenKind} (hloc : r loc loc') :
      Like r (.unexpectedToken loc found) (.unexpectedToken loc' found)
  | unmatchedDelimiter {loc loc' : Location} {expected : TokenKind} (hloc : r loc loc') :
      Like r (.unmatchedDelimiter loc expected) (.unmatchedDelimiter loc' expected)
  | nonAssociativeChain {loc loc' : Location} {operator : TokenKind} (hloc : r loc loc') :
      Like r (.nonAssociativeChain loc operator) (.nonAssociativeChain loc' operator)
  | unclosedBracket {opening opening' : Location} (hloc : r opening opening') :
      Like r (.unclosedBracket opening) (.unclosedBracket opening')
  | recursionLimitExceeded {loc loc' : Location} (hloc : r loc loc') :
      Like r (.recursionLimitExceeded loc) (.recursionLimitExceeded loc')
  | invalidNumber {loc loc' : Location} (hloc : r loc loc') :
      Like r (.invalidNumber loc) (.invalidNumber loc')

/-- Where the one error lets an attempt go back, so does the other. -/
theorem SyntaxError.isRecoverable_eq_of_like {e e' : SyntaxError} (h : Like r e e') :
    e'.isRecoverable = e.isRecoverable := by
  cases h <;> rfl

/-- The error without its location. -/
def SyntaxError.eraseLocation : SyntaxError → SyntaxError
  | .unexpectedToken _ found => .unexpectedToken .zero found
  | .unmatchedDelimiter _ expected => .unmatchedDelimiter .zero expected
  | .nonAssociativeChain _ operator => .nonAssociativeChain .zero operator
  | .unclosedBracket _ => .unclosedBracket .zero
  | .recursionLimitExceeded _ => .recursionLimitExceeded .zero
  | .invalidNumber _ => .invalidNumber .zero

/-- Errors that are alike are the same without their locations. -/
theorem SyntaxError.eraseLocation_eq_of_like {e e' : SyntaxError} (h : Like r e e') :
    e.eraseLocation = e'.eraseLocation := by
  cases h <;> rfl

/-- Errors that are alike with the same locations are the same. -/
theorem SyntaxError.eq_of_like {e e' : SyntaxError} (h : Like Eq e e') : e = e' := by
  cases h <;> congr

/-! ## Data made of data -/

namespace Located

variable {α β : Type} [Located α] [Located β]

instance : Located Expr where
  Like := Expr.Like
  like_self := Expr.like_self
  eq_of_like := Expr.eq_of_like

instance : Located SyntaxError where
  Like := SyntaxError.Like
  like_self h e := by
    cases e <;> constructor <;> exact h _
  eq_of_like := SyntaxError.eq_of_like

instance : Located (List α) where
  Like r := List.Forall₂ (Like r)
  like_self h _ := List.forall₂_same.mpr fun a _ => like_self h a
  eq_of_like h := List.forall₂_eq_eq_eq ▸ h.imp fun _ _ => eq_of_like

instance : Located (Option α) where
  Like r := Option.Rel (Like r)
  like_self
    | h, some a => .some (like_self h a)
    | _, none => .none
  eq_of_like
    | .some h => congrArg some (eq_of_like h)
    | .none => rfl

instance : Located (α × β) where
  Like r a a' := Like r a.1 a'.1 ∧ Like r a.2 a'.2
  like_self h a := ⟨like_self h a.1, like_self h a.2⟩
  eq_of_like h := Prod.ext (eq_of_like h.1) (eq_of_like h.2)

/-- Two turns that both go on, or that both end, with what is alike. -/
inductive LikeTurn (r : Location → Location → Prop) :
    Reader.Parse.Turn α β → Reader.Parse.Turn α β → Prop where
  | again {a a' : α} (h : Like r a a') : LikeTurn r (.again a) (.again a')
  | done {b b' : β} (h : Like r b b') : LikeTurn r (.done b) (.done b')

instance : Located (Reader.Parse.Turn α β) where
  Like := LikeTurn
  like_self
    | h, .again a => .again (like_self h a)
    | h, .done b => .done (like_self h b)
  eq_of_like
    | .again h => congrArg _ (eq_of_like h)
    | .done h => congrArg _ (eq_of_like h)

end Located

/-- Two values that are alike, or two errors that are. -/
inductive LikeResult {α : Type} [Located α] (r : Location → Location → Prop) :
    Except SyntaxError α → Except SyntaxError α → Prop where
  | ok {a a' : α} (h : Located.Like r a a') : LikeResult r (.ok a) (.ok a')
  | error {e e' : SyntaxError} (h : SyntaxError.Like r e e') : LikeResult r (.error e) (.error e')

/-- Results stay alike when what comes next takes like values to like results. -/
theorem LikeResult.bind {α β : Type} [Located α] [Located β] {x x' : Except SyntaxError α}
    {f f' : α → Except SyntaxError β} (hx : LikeResult r x x')
    (hf : ∀ a a', Located.Like r a a' → LikeResult r (f a) (f' a')) :
    LikeResult r (x >>= f) (x' >>= f') := by
  cases hx with
  | ok h => exact hf _ _ h
  | error h => exact .error h

/-- Results stay alike under functions that keep values alike. -/
theorem LikeResult.map {α β : Type} [Located α] [Located β] {x x' : Except SyntaxError α}
    {g g' : α → β} (hx : LikeResult r x x')
    (hg : ∀ a a', Located.Like r a a' → Located.Like r (g a) (g' a')) :
    LikeResult r (x.map g) (x'.map g') := by
  cases hx with
  | ok h => exact .ok (hg _ _ h)
  | error h => exact .error h

namespace Expr

variable {e e' : Expr} {loc loc' : Location} {table : OperatorTable} {args args' : List Expr}
  {head : String}

/-! ## Parts of trees -/

/-- The locations of like trees are related. -/
theorem loc_like (h : Like r e e') : r e.loc e'.loc := by
  cases h <;> assumption

/-- Like trees are the same symbol, or both are none. -/
theorem symbolName?_eq_of_like (h : Like r e e') : e'.symbolName? = e.symbolName? := by
  cases h <;> rfl

/-- Like trees have heads of the same name. -/
theorem headName?_eq_of_like (h : Like r e e') : e'.headName? = e.headName? := by
  cases h with
  | node hhead => exact symbolName?_eq_of_like hhead
  | _ => rfl

/-- Like trees both stand in brackets, or neither does. -/
theorem isParenthesized_eq_of_like (h : Like r e e') :
    e'.isParenthesized = e.isParenthesized := by
  cases h <;> rfl

/-- Like trees are both open nodes with the head, or neither is. -/
theorem isOpenNode_eq_of_like (h : Like r e e') (head : String) :
    e'.isOpenNode head = e.isOpenNode head := by
  rw [isOpenNode, isOpenNode, headName?_eq_of_like h, isParenthesized_eq_of_like h]

/-- The children of like trees are alike, one by one. -/
theorem children_like (h : Like r e e') : List.Forall₂ (Like r) e.children e'.children := by
  cases h with
  | node _ hchildren => exact hchildren
  | _ => exact .nil

/-- Like trees stay alike when they are moved to related locations. -/
theorem like_withLoc (h : Like r e e') (hloc : r loc loc') :
    Like r (e.withLoc loc) (e'.withLoc loc') := by
  cases h with
  | symbol => exact .symbol hloc
  | number => exact .number hloc
  | string => exact .string hloc
  | node hhead hchildren => exact .node hhead hchildren hloc

/-- A tree that is moved to where it is stays what it is. -/
theorem withLoc_loc (e : Expr) : e.withLoc e.loc = e := by
  cases e <;> rfl

/-- Like trees stay alike in brackets. -/
theorem like_parenthesize (h : Like r e e') : Like r e.parenthesize e'.parenthesize := by
  cases h with
  | symbol hloc => exact .symbol hloc
  | number hloc => exact .number hloc
  | string hloc => exact .string hloc
  | node hhead hchildren hloc => exact .node hhead hchildren hloc

/-! ## Making nodes -/

/-- What like trees contribute to a node is alike. -/
theorem contribution_like (h : Like r e e') (head : String) :
    List.Forall₂ (Like r) (contribution head e) (contribution head e') := by
  unfold contribution
  rw [isOpenNode_eq_of_like h]
  split
  · exact children_like h
  · exact .cons h .nil

/-- So are the arguments that like trees make. -/
theorem arguments_like (h : List.Forall₂ (Like r) args args') :
    List.Forall₂ (Like r) (arguments table head args) (arguments table head args') := by
  unfold arguments
  split
  · exact List.rel_flatMap h fun _ _ he => contribution_like he head
  · exact h

/-- So are the nodes that are made of like trees. -/
theorem like_make (h : List.Forall₂ (Like r) args args') (hloc : r loc loc') :
    Like r (make table head args loc) (make table head args' loc') :=
  .node (.symbol hloc) (arguments_like h) hloc

/-- So are their applications. -/
theorem like_apply (he : Like r e e') (h : List.Forall₂ (Like r) args args')
    (hloc : r loc loc') : Like r (apply e args loc) (apply e' args' loc') :=
  .node he h hloc

/-- The same integer at related locations is alike. -/
theorem like_integer (n : Int) (hloc : r loc loc') : Like r (integer n loc) (integer n loc') :=
  .number hloc

/-- The negatives of like trees are alike, numbers and products included. -/
theorem like_negate {sign sign' : Location} (h : Like r e e') (hsign : r sign sign')
    (hloc : r loc loc') :
    Like r (negate table head e sign loc) (negate table head e' sign' loc') := by
  have hmake : Like r (make table head [integer (-1) sign, e] loc)
      (make table head [integer (-1) sign', e'] loc') :=
    like_make (.cons (like_integer (-1) hsign) (.cons h .nil)) hloc
  -- a number may take the sign into itself
  cases h with
  | number hnumber =>
    unfold negate
    dsimp only
    split
    · exact hmake
    · exact .number hloc
  | _ => exact hmake

/-- Like trees stay alike with like trees put between them. -/
theorem intersperse_like (h : List.Forall₂ (Like r) args args') (he : Like r e e') :
    List.Forall₂ (Like r) (args.intersperse e) (args'.intersperse e') := by
  induction h with
  | nil => exact .nil
  | cons hfirst hrest ih =>
    cases hrest with
    | nil => exact .cons hfirst .nil
    | cons hsecond hrest => exact .cons hfirst (.cons he ih)

/-- Comparisons of like trees are alike: which chain is extended, and how, does not depend on
    locations. -/
theorem like_compare {rhs rhs' : Expr} {sign sign' : Location} (h : Like r e e') (op : String)
    (hsign : r sign sign') (hrhs : Like r rhs rhs') (hloc : r loc loc') :
    Like r (compare table e op sign rhs loc) (compare table e' op sign' rhs' loc') := by
  have hlast : List.Forall₂ (Like r) [.symbol op sign, rhs] [.symbol op sign', rhs'] :=
    .cons (.symbol hsign) (.cons hrhs .nil)
  have hmake : Like r (make table op [e, rhs] loc) (make table op [e', rhs'] loc') :=
    like_make (.cons h (.cons hrhs .nil)) hloc
  -- only an open node over a symbol can be a chain that goes on; all else starts a new one
  cases h with
  | @node _ _ _ _ parenthesized _ _ hhead hchildren =>
    cases hhead with
    | symbol hheadLoc =>
      cases parenthesized with
      | true => exact hmake
      | false =>
        unfold compare
        dsimp only
        split
        · exact .node (.symbol hheadLoc) (List.rel_append hchildren hlast) hloc
        split
        · exact like_make
            (List.rel_append (intersperse_like hchildren (.symbol hheadLoc)) hlast) hloc
        · exact hmake
    | _ => exact hmake
  | _ => exact hmake

/-- The last of like trees are alike. -/
theorem getLast?_like (h : List.Forall₂ (Like r) args args') (he : Like r e e') :
    Like r (args.getLast?.getD e) (args'.getLast?.getD e') := by
  induction h generalizing e e' with
  | nil => exact he
  | cons hfirst hrest ih =>
    rw [List.getLast?_cons, List.getLast?_cons]
    exact ih hfirst

/-- Like trees side by side make like products, if the relation has the unions of what it
    relates. -/
theorem like_juxtaposed? (hunion : ∀ {a a' b b' : Location}, r a a' → r b b' →
      r (a.union b) (a'.union b')) (h : List.Forall₂ (Like r) args args') :
    Option.Rel (Like r) (juxtaposed? args) (juxtaposed? args') := by
  cases h with
  | nil => exact .none
  | cons hfirst hrest =>
    cases hrest with
    | nil => exact .some hfirst
    | cons hsecond hrest =>
      have hloc := hunion (loc_like hfirst) (loc_like (getLast?_like (.cons hsecond hrest) hfirst))
      exact .some (like_apply (.symbol hloc) (.cons hfirst (.cons hsecond hrest)) hloc)

/-- Trees that may be missing stay alike when like ones take their places. -/
theorem like_getD {e? e?' : Option Expr} (h : Option.Rel (Like r) e? e?') (he : Like r e e') :
    Like r (e?.getD e) (e?'.getD e') := by
  cases h with
  | some h => exact h
  | none => exact he

/-- Trees that may be missing make like lists. -/
theorem like_toList {e? e?' : Option Expr} (h : Option.Rel (Like r) e? e?') :
    List.Forall₂ (Like r) e?.toList e?'.toList := by
  cases h with
  | some h => exact .cons h .nil
  | none => exact .nil

/-! ## Atoms -/

/-- A literal is read as like trees at related locations, or as like errors. -/
theorem like_literal (text : List Char) (hloc : r loc loc') :
    LikeResult r (literal text loc) (literal text loc') := by
  unfold literal
  split
  · exact .ok (.number hloc)
  · exact .error (.invalidNumber hloc)

/-- Patterns of the same name over like trees are alike. -/
theorem like_namedPattern (name : List Char) (h : Like r e e') (hloc : r loc loc') :
    Like r (namedPattern table name e loc) (namedPattern table name e' loc') := by
  unfold namedPattern
  split
  · exact h
  · exact like_make (.cons (.symbol hloc) (.cons h .nil)) hloc

/-- The text of a token does not depend on where the token is. -/
theorem textAfter_eq (n : Nat) (kind : TokenKind) (text : String) (loc loc' : Location) :
    textAfter n ⟨kind, text, loc'⟩ = textAfter n ⟨kind, text, loc⟩ := rfl

section Tokens

variable (kind : TokenKind) (text : String) (hloc : r loc loc')
include hloc

/-- A reference to an argument is like itself at another place. -/
theorem like_slot :
    LikeResult r (slot table ⟨kind, text, loc⟩) (slot table ⟨kind, text, loc'⟩) := by
  have hmake : ∀ arg arg', Like r arg arg' →
      LikeResult r (.ok (make table "Slot" [arg] loc)) (.ok (make table "Slot" [arg'] loc')) :=
    fun arg arg' harg => .ok (like_make (.cons harg .nil) hloc)
  simp only [slot]
  -- the text behind the mark does not depend on the location
  rw [textAfter_eq 1 kind text loc loc']
  generalize textAfter 1 ⟨kind, text, loc⟩ = rest
  split
  · exact hmake _ _ (like_integer 1 hloc)
  split
  · exact .bind (like_literal rest hloc) hmake
  · exact hmake _ _ (.string hloc)

/-- So is a reference to the arguments from one on. -/
theorem like_slotSequence :
    LikeResult r (slotSequence table ⟨kind, text, loc⟩)
      (slotSequence table ⟨kind, text, loc'⟩) := by
  have hmake : ∀ arg arg', Like r arg arg' → LikeResult r
      (.ok (make table "SlotSequence" [arg] loc)) (.ok (make table "SlotSequence" [arg'] loc')) :=
    fun arg arg' harg => .ok (like_make (.cons harg .nil) hloc)
  simp only [slotSequence]
  rw [textAfter_eq 2 kind text loc loc']
  generalize textAfter 2 ⟨kind, text, loc⟩ = rest
  split
  · exact hmake _ _ (like_integer 1 hloc)
  · exact .bind (like_literal rest hloc) hmake

/-- So is a reference to an output. -/
theorem like_out : LikeResult r (out table ⟨kind, text, loc⟩) (out table ⟨kind, text, loc'⟩) := by
  have hmake : ∀ args args' : List Expr, List.Forall₂ (Like r) args args' → LikeResult r
      (.ok (make table "Out" args loc)) (.ok (make table "Out" args' loc')) :=
    fun args args' hargs => .ok (like_make hargs hloc)
  simp only [out]
  -- the text behind the mark does not depend on the location
  rw [textAfter_eq 1 kind text loc loc']
  generalize textAfter 1 ⟨kind, text, loc⟩ = rest
  split
  · exact hmake _ _ .nil
  split
  · exact hmake _ _ (.cons (like_integer _ hloc) .nil)
  · exact .bind (.map (like_literal rest hloc) fun e e' he => List.Forall₂.cons he .nil) hmake

/-- So is a blank of a pattern. -/
theorem like_blank :
    LikeResult r (blank table ⟨kind, text, loc⟩) (blank table ⟨kind, text, loc'⟩) := by
  simp only [blank]
  split
  · exact .ok (like_make (.cons (like_namedPattern _ (like_make .nil hloc) hloc) .nil) hloc)
  split
  · exact .error (.unexpectedToken hloc)
  · refine .ok (like_namedPattern _ (like_make ?_ hloc) hloc)
    split
    · exact .nil
    · exact .cons (.symbol hloc) .nil

/-- So is a symbol, a number, a string or the name of a file. -/
theorem like_leaf : LikeResult r (leaf ⟨kind, text, loc⟩) (leaf ⟨kind, text, loc'⟩) := by
  simp only [leaf]
  split
  · exact .ok (.symbol hloc)
  · exact like_literal _ hloc
  · exact .ok (.string hloc)
  · exact .ok (.string hloc)
  · exact .error (.unexpectedToken hloc)

/-- So is every atom. -/
theorem like_atom :
    LikeResult r (atom table ⟨kind, text, loc⟩) (atom table ⟨kind, text, loc'⟩) := by
  simp only [atom]
  split
  · exact like_slot _ text hloc
  · exact like_slotSequence _ text hloc
  · exact like_out _ text hloc
  · exact like_blank _ text hloc
  · exact like_leaf kind text hloc

end Tokens

end Expr

end Symbolic
