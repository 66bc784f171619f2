import Symbolic.Expr.Atom
import Symbolic.Operator.Standard

/-!
# The grammar of spans

In `o₀ ;; o₁ ;; … ;; oₙ` every operand may be missing. There are two ways to read this from left to
right. In both a span takes a start, a mark and an end, and a step if there is another mark with an
operand after it. They differ where that other mark is followed by yet another one: either the
span ends before it, or the rest starts with a span of its own, which becomes the step. The
reader goes the second way, so that a span can be part of a span.

## Key results

- `separateSpans`, `nestedSpans`: the two readings
- `nestedSpans_eq_iff`: they agree just where no missing step has a mark after it
- `not_isSpan_of_mem_separateSpans`: in the first reading no span is part of a span
-/

namespace Symbolic.Spans

/-- A symbol or a number. -/
structure Operand where
  token : Token
  tree : Expr
  plain : token.kind = .symbol ∨ token.kind = .number
  atom : Expr.atom .standard token = .ok tree

/-- A mark `;;` and the operand after it, which may be missing. -/
structure Link where
  mark : Token
  isMark : mark.kind = .span
  operand : Option Operand

/-! ## Tokens -/

def Link.tokens (link : Link) : List Token :=
  link.mark :: link.operand.toList.map Operand.token

/-- The tokens of marks with the operands after them. -/
def linkTokens (links : List Link) : List Token :=
  links.flatMap Link.tokens

/-- The tokens of a first operand, which may be missing, and marks with the operands after them. -/
def chainTokens (first : Option Operand) (links : List Link) : List Token :=
  first.toList.map Operand.token ++ linkTokens links

/-! ## Trees

All trees stand at no place in particular. -/

/-- What a missing start stands for. -/
def one : Expr :=
  .integer 1 .zero

/-- What a missing end stands for. -/
def all : Expr :=
  .symbol "All" .zero

def Operand.shape (operand : Operand) : Expr :=
  operand.tree.eraseLocations

/-- A span of two or three parts. -/
def spanOf (parts : List Expr) : Expr :=
  .node (.symbol "Span" .zero) parts false .zero

/-- The end of the span to which the mark belongs. -/
def Link.stop (link : Link) : Expr :=
  link.operand.elim all Operand.shape

/-- The start of the span to which the first mark belongs. -/
def startOf (first : Option Operand) : Expr :=
  first.elim one Operand.shape

/-- Spans side by side are multiplied. -/
def product : List Expr → Expr
  | [span] => span
  | spans => .node (.symbol "Times" .zero) spans false .zero

/-! ## Two readings -/

/-- The spans of a chain if every span ends before a mark that has no operand after it. -/
def separateSpans (start : Expr) : List Link → List Expr
  | [] => []
  | [link] => [spanOf [start, link.stop]]
  | link :: second :: rest =>
    match second.operand with
    | some step => spanOf [start, link.stop, step.shape] :: separateSpans one rest
    | none => spanOf [start, link.stop] :: separateSpans one (second :: rest)

/-- The spans of a chain if a span takes for its step whatever starts after a second mark, be it an
    operand or a span. -/
def nestedSpans (start : Expr) : List Link → List Expr
  | [] => []
  | [link] => [spanOf [start, link.stop]]
  | link :: second :: rest =>
    match second.operand with
    | some step => spanOf [start, link.stop, step.shape] :: nestedSpans one rest
    | none =>
      match nestedSpans one rest with
      | [] => [spanOf [start, link.stop], spanOf [one, second.stop]]
      | step :: more => spanOf [start, link.stop, step] :: more

/-- Whether, reading from left to right, a step is missing only at the end. -/
def isSettled : List Link → Bool
  | _ :: second :: rest => if second.operand.isSome then isSettled rest else rest.isEmpty
  | _ => true

/-- How deep spans are nested in each other, at most. -/
def nesting : List Link → Nat
  | _ :: second :: rest =>
    if second.operand.isSome then nesting rest else if rest.isEmpty then 0 else nesting rest + 1
  | _ => 0

/-! ## How the readings differ -/

theorem exists_nestedSpans_eq_cons (start : Expr) (link : Link) (links : List Link) :
    ∃ parts more, nestedSpans start (link :: links) = spanOf (start :: parts) :: more := by
  cases links with
  | nil => exact ⟨_, _, rfl⟩
  | cons second rest =>
    rw [nestedSpans]
    split
    · exact ⟨_, _, rfl⟩
    · split <;> exact ⟨_, _, rfl⟩

theorem nestedSpans_eq_nil (start : Expr) (links : List Link) :
    nestedSpans start links = [] ↔ links = [] := by
  cases links with
  | nil => exact iff_of_true rfl rfl
  | cons link links =>
    obtain ⟨parts, more, h⟩ := exists_nestedSpans_eq_cons start link links
    simp [h]

/-- The readings agree just where no missing step has a mark after it. -/
theorem nestedSpans_eq_iff (start : Expr) (links : List Link) :
    nestedSpans start links = separateSpans start links ↔ isSettled links = true := by
  -- the recursion takes two links at a time
  induction start, links using nestedSpans.induct with
  | case1 start => exact iff_of_true rfl rfl
  | case2 start link => exact iff_of_true rfl rfl
  | case3 start link second rest step hstep ih =>
    simpa [nestedSpans, separateSpans, isSettled, hstep] using ih
  | case4 start link second rest hstep hnil ih =>
    obtain rfl := (nestedSpans_eq_nil one rest).mp hnil
    simp [nestedSpans, separateSpans, isSettled, hstep]
  | case5 start link second rest hstep step more hrest ih =>
    -- the one reading starts with a span of three parts, the other with one of two
    have hne : rest ≠ [] := by
      rintro rfl
      cases hrest
    have hparts : spanOf [start, link.stop, step] ≠ spanOf [start, link.stop] := by
      simp [spanOf]
    simp [nestedSpans, separateSpans, isSettled, hstep, hrest, hne, hparts]

theorem nesting_eq_zero_of_isSettled {links : List Link} (h : isSettled links = true) :
    nesting links = 0 := by
  induction links using nesting.induct with
  | case1 _ second rest hstep ih =>
    rw [isSettled, if_pos hstep] at h
    rw [nesting, if_pos hstep, ih h]
  | case2 _ second rest hstep hrest => rw [nesting, if_neg hstep, if_pos hrest]
  | case3 _ second rest hstep hrest _ =>
    rw [isSettled, if_neg hstep] at h
    exact absurd h hrest
  | case4 links hshort => rw [nesting]; exact hshort

/-- Whether the expression is a span. -/
def IsSpan (e : Expr) : Prop :=
  e.headName? = some "Span"

theorem Operand.tree_cases (operand : Operand) :
    (∃ name loc, operand.tree = .symbol name loc) ∨
      ∃ value loc, operand.tree = .number value loc := by
  obtain ⟨token, tree, plain, atom⟩ := operand
  rcases plain with hkind | hkind
  · simp only [Expr.atom, hkind, Expr.leaf] at atom
    cases atom
    exact .inl ⟨_, _, rfl⟩
  · simp only [Expr.atom, hkind, Expr.leaf] at atom
    unfold Expr.literal at atom
    split at atom
    · cases atom
      exact .inr ⟨_, _, rfl⟩
    · cases atom

theorem Operand.not_isSpan_shape (operand : Operand) : ¬IsSpan operand.shape := by
  unfold Operand.shape
  rcases operand.tree_cases with ⟨name, loc, h⟩ | ⟨value, loc, h⟩ <;> rw [h] <;>
    exact fun h => nomatch h

theorem not_isSpan_startOf (first : Option Operand) : ¬IsSpan (startOf first) := by
  cases first with
  | none => exact fun h => nomatch h
  | some operand => exact operand.not_isSpan_shape

theorem Link.not_isSpan_stop (link : Link) : ¬IsSpan link.stop := by
  unfold Link.stop
  cases link.operand with
  | none => exact fun h => nomatch h
  | some operand => exact operand.not_isSpan_shape

theorem isSpan_spanOf {parts : List Expr} (h : ∀ part ∈ parts, ¬IsSpan part) :
    IsSpan (spanOf parts) ∧ ∀ part ∈ (spanOf parts).children, ¬IsSpan part :=
  ⟨rfl, h⟩

/-- If spans end before every mark with no operand after it, none is a part of another one. -/
theorem not_isSpan_of_mem_separateSpans {start : Expr} (hstart : ¬IsSpan start)
    (links : List Link) : ∀ span ∈ separateSpans start links,
      IsSpan span ∧ ∀ part ∈ span.children, ¬IsSpan part := by
  have hone : ¬IsSpan one := not_isSpan_startOf none
  have htwo : ∀ {start : Expr} (link : Link), ¬IsSpan start →
      ∀ part ∈ [start, link.stop], ¬IsSpan part := by
    intro start link hstart
    simp [hstart, link.not_isSpan_stop]
  -- the cases of the grammar: no mark, one mark, a mark with a step, a mark without
  induction start, links using separateSpans.induct with
  | case1 start => exact fun _ h => nomatch h
  | case2 start link =>
    rw [separateSpans, List.forall_mem_singleton]
    exact isSpan_spanOf (htwo link hstart)
  | case3 start link second rest step hstep ih =>
    simp only [separateSpans, hstep, List.forall_mem_cons]
    refine ⟨isSpan_spanOf ?_, ih hone⟩
    simp [hstart, link.not_isSpan_stop, step.not_isSpan_shape]
  | case4 start link second rest hstep ih =>
    simp only [separateSpans, hstep, List.forall_mem_cons]
    exact ⟨isSpan_spanOf (htwo link hstart), ih hone⟩

end Symbolic.Spans
