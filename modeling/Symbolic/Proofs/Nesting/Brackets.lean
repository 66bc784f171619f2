import Symbolic.Token.Basic

/-!
# Brackets among tokens

Tokens are nested if every opening bracket among them is closed by a bracket of its kind, and
nested tokens stand between the two. The first tokens of a nested sequence leave some brackets
open: what they leave after each of these is nested again. A bracket that is left open to the end
is closed by none of the tokens after it.

## Key results

- `Nested`, `Opened`: nested tokens, and tokens that leave brackets open
- `Opened.pass`, `Opened.push`, `Opened.pop`: one more token
- `Opened.unclosed`: a bracket that is left open is closed by no token
- `Nested.exists_closing`: in nested tokens every opening bracket is closed
-/

namespace Symbolic

/-! ## Kinds of brackets -/

/-- How a token changes the number of open brackets that it takes to close those that follow. -/
def TokenKind.balance : TokenKind → Int
  | .leftParen | .leftBracket | .leftBrace | .leftAssociation => -1
  | .rightParen | .rightBracket | .rightBrace | .rightAssociation => 1
  | _ => 0

/-- The kind of token that closes an opening bracket. -/
def TokenKind.closer? : TokenKind → Option TokenKind
  | .leftParen => some .rightParen
  | .leftBracket => some .rightBracket
  | .leftBrace => some .rightBrace
  | .leftAssociation => some .rightAssociation
  | _ => none

/-- A bracket and the one that closes it balance. -/
theorem balance_of_closer? {kind closer : TokenKind} (h : kind.closer? = some closer) :
    kind.balance = -1 ∧ closer.balance = 1 := by
  unfold TokenKind.closer? at h
  split at h <;> cases h <;> exact ⟨rfl, rfl⟩

/-- An opening bracket balances one that closes. -/
theorem balance_of_opens {kind : TokenKind} (h : kind.closer?.isSome) : kind.balance = -1 := by
  obtain ⟨closer, hcloser⟩ := Option.isSome_iff_exists.mp h
  exact (balance_of_closer? hcloser).1

/-! ## Excess -/

/-- How many more closing brackets there are than opening ones. -/
def excess : List Token → Int
  | [] => 0
  | t :: tokens => t.kind.balance + excess tokens

/-- Nothing has no excess. -/
@[simp] theorem excess_nil : excess [] = 0 := rfl

/-- A token adds its balance to the excess. -/
@[simp] theorem excess_cons (t : Token) (tokens : List Token) :
    excess (t :: tokens) = t.kind.balance + excess tokens := rfl

/-- The excess of two lists adds up. -/
@[simp] theorem excess_append (tokens tokens' : List Token) :
    excess (tokens ++ tokens') = excess tokens + excess tokens' := by
  induction tokens with
  | nil => simp
  | cons t tokens ih =>
    simp only [List.cons_append, excess_cons, ih]
    omega

/-- Nowhere among the tokens have more brackets been closed than opened. -/
def NeverCloses (tokens : List Token) : Prop :=
  ∀ before, before <+: tokens → excess before ≤ 0

/-- What two lists start with ends in the first or in the second. -/
theorem prefix_append_cases {before tokens tokens' : List Token}
    (h : before <+: tokens ++ tokens') :
    before <+: tokens ∨ ∃ before', before = tokens ++ before' ∧ before' <+: tokens' := by
  obtain ⟨rest, hrest⟩ := h
  rcases List.append_eq_append_iff.mp hrest with ⟨more, rfl, -⟩ | ⟨more, rfl, rfl⟩
  · exact .inl (List.prefix_append _ _)
  · exact .inr ⟨more, rfl, List.prefix_append _ _⟩

/-- A token that closes nothing may come first. -/
theorem NeverCloses.cons {t : Token} {tokens : List Token} (ht : t.kind.balance ≤ 0)
    (h : NeverCloses tokens) : NeverCloses (t :: tokens) := by
  intro before hbefore
  rcases List.prefix_cons_iff.mp hbefore with rfl | ⟨before', rfl, hprefix⟩
  · exact Int.le_refl 0
  · have := h before' hprefix
    rw [excess_cons]
    omega

/-- Tokens that never close what is before them stay so together. -/
theorem NeverCloses.append {tokens tokens' : List Token} (h : NeverCloses tokens)
    (h' : NeverCloses tokens') : NeverCloses (tokens ++ tokens') := by
  intro before hbefore
  rcases prefix_append_cases hbefore with hprefix | ⟨before', rfl, hprefix⟩
  · exact h before hprefix
  · have hall := h tokens (List.prefix_refl _)
    have hmore := h' before' hprefix
    rw [excess_append]
    omega

/-! ## Nested tokens -/

/-- Every bracket among the tokens is closed by one of its kind, with nested tokens between. -/
inductive Nested : List Token → Prop where
  | nil : Nested []
  | plain {t : Token} {tokens : List Token} (plain : t.kind.balance = 0) (after : Nested tokens) :
      Nested (t :: tokens)
  | bracketed {opening closing : Token} {inside tokens : List Token}
      (closes : opening.kind.closer? = some closing.kind) (nested : Nested inside)
      (after : Nested tokens) : Nested (opening :: (inside ++ closing :: tokens))

/-- Tokens that leave open the brackets of the opening tokens, the innermost first. -/
inductive Opened : List Token → List Token → Prop where
  | nested {tokens : List Token} (nested : Nested tokens) : Opened [] tokens
  | opening {t : Token} {openings before inside : List Token} (opens : t.kind.closer?.isSome)
      (opened : Opened openings before) (nested : Nested inside) :
      Opened (t :: openings) (before ++ t :: inside)

/-- At the location stands an opening bracket that no token closes. -/
def Unclosed (tokens : List Token) (loc : Location) : Prop :=
  ∃ before t after, tokens = before ++ t :: after ∧ t.loc = loc ∧ t.kind.closer?.isSome ∧
    ∀ inside closing rest, after = inside ++ closing :: rest → Nested inside →
      t.kind.closer? ≠ some closing.kind

variable {t : Token} {tokens tokens' openings : List Token}

namespace Nested

/-- Nested tokens behind nested tokens are nested. -/
theorem append (h : Nested tokens) (h' : Nested tokens') : Nested (tokens ++ tokens') := by
  induction h with
  | nil => exact h'
  | plain plain _ ih => exact .plain plain ih
  | bracketed closes nested _ _ ih =>
    rw [List.cons_append, List.append_assoc]
    exact .bracketed closes nested ih

/-- Nested tokens open as many brackets as they close. -/
theorem excess_eq_zero (h : Nested tokens) : excess tokens = 0 := by
  induction h with
  | nil => rfl
  | plain plain _ ih => rw [excess_cons, plain, ih, Int.zero_add]
  | bracketed closes _ _ ih ih' =>
    obtain ⟨hopening, hclosing⟩ := balance_of_closer? closes
    rw [excess_cons, excess_append, excess_cons, ih, ih', hopening, hclosing]
    omega

/-- Nested tokens never close what is before them. -/
theorem neverCloses (h : Nested tokens) : NeverCloses tokens := by
  induction h with
  | nil =>
    intro before hbefore
    rw [List.prefix_nil.mp hbefore]
    exact Int.le_refl 0
  | plain plain _ ih => exact .cons (Int.le_of_eq plain) ih
  | bracketed closes nested _ ih ih' =>
    obtain ⟨hopening, hclosing⟩ := balance_of_closer? closes
    intro before hbefore
    rcases List.prefix_cons_iff.mp hbefore with rfl | ⟨before', rfl, hprefix⟩
    · exact Int.le_refl 0
    -- the opening bracket outweighs the closing one
    rw [excess_cons, hopening]
    rcases prefix_append_cases hprefix with hinside | ⟨before, rfl, hmore⟩
    · have := ih before' hinside
      omega
    · rw [excess_append, nested.excess_eq_zero]
      rcases List.prefix_cons_iff.mp hmore with rfl | ⟨rest, rfl, hrest⟩
      · simp
      · have := ih' rest hrest
        rw [excess_cons, hclosing]
        omega

/-- Every opening bracket is closed. -/
theorem exists_closing (h : Nested tokens) {before after : List Token}
    (htokens : tokens = before ++ t :: after) (opens : t.kind.closer?.isSome) :
    ∃ inside closing rest, after = inside ++ closing :: rest ∧ Nested inside ∧
      t.kind.closer? = some closing.kind := by
  have hbalance := balance_of_opens opens
  -- induction on how the tokens are nested
  induction h generalizing before after with
  | nil => simp at htokens
  | plain plain _ ih =>
    cases before with
    | nil =>
      obtain ⟨rfl, -⟩ := List.cons.inj htokens
      omega
    | cons first before => exact ih (List.cons.inj htokens).2
  | @bracketed opening closing inside tokens closes nested _ ih ih' =>
    cases before with
    | nil =>
      obtain ⟨rfl, rfl⟩ := List.cons.inj htokens
      exact ⟨inside, closing, tokens, rfl, nested, closes⟩
    | cons first before =>
      -- the bracket stands between those of the node, or after them
      rcases List.append_eq_append_iff.mp (List.cons.inj htokens).2 with
        ⟨gap, rfl, hgap⟩ | ⟨gap, hinside, hgap⟩
      · cases gap with
        | nil =>
          obtain ⟨rfl, -⟩ := List.cons.inj hgap
          have := (balance_of_closer? closes).2
          omega
        | cons _ gap => exact ih' (List.cons.inj hgap).2
      · cases gap with
        | nil =>
          obtain ⟨rfl, -⟩ := List.cons.inj hgap
          have := (balance_of_closer? closes).2
          omega
        | cons _ gap =>
          obtain ⟨rfl, rfl⟩ := List.cons.inj hgap
          obtain ⟨inside', closing', rest, rfl, nested', closes'⟩ := ih hinside
          exact ⟨inside', closing', rest ++ closing :: tokens, by simp, nested', closes'⟩

/-- Nothing is left unclosed in nested tokens. -/
theorem not_unclosed (h : Nested tokens) (loc : Location) : ¬Unclosed tokens loc := by
  rintro ⟨before, t, after, htokens, -, opens, hnone⟩
  obtain ⟨inside, closing, rest, rfl, nested, closes⟩ := h.exists_closing htokens opens
  exact hnone inside closing rest rfl nested closes

end Nested

namespace Opened

/-- Where nothing is left open the tokens are nested. -/
theorem nested_of_nil (h : Opened [] tokens) : Nested tokens := by
  cases h with
  | nested nested => exact nested

/-- Nested tokens leave open what was open before. -/
theorem append_nested (h : Opened openings tokens) (h' : Nested tokens') :
    Opened openings (tokens ++ tokens') := by
  cases h with
  | nested nested => exact .nested (nested.append h')
  | opening opens opened nested =>
    rw [List.append_assoc, List.cons_append]
    exact .opening opens opened (nested.append h')

/-! ## One more token -/

/-- A token that is no bracket leaves open what was open. -/
theorem pass (h : Opened openings tokens) (plain : t.kind.balance = 0) :
    Opened openings (tokens ++ [t]) :=
  h.append_nested (.plain plain .nil)

/-- An opening bracket is left open. -/
theorem push (h : Opened openings tokens) (opens : t.kind.closer?.isSome) :
    Opened (t :: openings) (tokens ++ [t]) :=
  .opening opens h .nil

/-- A closing bracket closes the last one that is open. -/
theorem pop {opening : Token} (h : Opened (opening :: openings) tokens)
    (closes : opening.kind.closer? = some t.kind) : Opened openings (tokens ++ [t]) := by
  cases h with
  | opening opens opened nested =>
    rw [List.append_assoc, List.cons_append]
    exact opened.append_nested (.bracketed closes nested .nil)

/-! ## What is left open -/

/-- Behind a bracket that is left open, nothing closes it. -/
theorem exists_neverCloses (h : Opened openings tokens) (hmem : t ∈ openings) :
    ∃ before after, tokens = before ++ t :: after ∧ t.kind.closer?.isSome ∧
      NeverCloses after := by
  induction h with
  | nested _ => cases hmem
  | @opening opening openings before inside opens opened nested ih =>
    rcases List.mem_cons.mp hmem with rfl | hmem
    · exact ⟨before, inside, rfl, opens, nested.neverCloses⟩
    · obtain ⟨before', after, rfl, opens', hnever⟩ := ih hmem
      refine ⟨before', after ++ opening :: inside, by simp, opens', hnever.append ?_⟩
      exact .cons (by rw [balance_of_opens opens]; decide) nested.neverCloses

/-- A bracket that is left open is unclosed. -/
theorem unclosed (h : Opened openings tokens) (hmem : t ∈ openings) : Unclosed tokens t.loc := by
  obtain ⟨before, after, htokens, opens, hnever⟩ := h.exists_neverCloses hmem
  refine ⟨before, t, after, htokens, rfl, opens, ?_⟩
  intro inside closing rest hafter nested closes
  -- after nested tokens a closing bracket would be one too many
  have hprefix : inside ++ [closing] <+: after := ⟨rest, by rw [hafter]; simp⟩
  have hle := hnever _ hprefix
  rw [excess_append, nested.excess_eq_zero, excess_cons, (balance_of_closer? closes).2] at hle
  simp at hle

end Opened

end Symbolic
