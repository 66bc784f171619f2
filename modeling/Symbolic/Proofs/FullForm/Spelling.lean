import Mathlib.Control.Monad.Basic
import Symbolic.Expr.Atom
import Symbolic.Proofs.Scanning.Scans

/-!
# The tokens of a full form

A tree can be read back from its full form if its names and numbers are each one token of their
own, and if no negative number is applied to anything. The tokens of its full form then spell the
tree: symbols, strings and numbers, a sign before a number that has one, and brackets and commas.

## Key results

- `exists_scans_fullForm`: scanning the full form gives tokens that spell the tree
-/

namespace Symbolic

namespace Expr

/-! ## Trees up to locations -/

mutual

/-- The tree without its locations, and without the marks of brackets. -/
def outline : Expr → Expr
  | .symbol name _ => .symbol name .zero
  | .number value _ => .number value .zero
  | .string value _ => .string value .zero
  | .node head children _ _ => .node head.outline (outlines children) false .zero

/-- The trees without their locations, and without the marks of brackets. -/
def outlines : List Expr → List Expr
  | [] => []
  | e :: es => e.outline :: outlines es

end

/-! ## Well-formed trees -/

/-- A name that is scanned as a symbol of that name, which stands for itself. -/
def IsName (name : String) : Prop :=
  (∃ loc stop, tokenize name = .ok [⟨.symbol, name, loc⟩, .endOfInput stop]) ∧
    canonicalName name = name

/-- A number without a sign that is scanned as one literal, from which it can be read again. -/
def IsMagnitude (n : Number) : Prop :=
  ∃ t stop, tokenize n.text = .ok [t, .endOfInput stop] ∧ t.kind = .number ∧
    Number.ofLiteral? t.text = some n

/-- Whether an expression is a number with a sign. -/
def isNegative : Expr → Bool
  | .number n _ => n.negative
  | _ => false

mutual

/-- Names and numbers are tokens of their own, and nothing has a negative number as its head. -/
def WellFormed : Expr → Prop
  | .symbol name _ => IsName name
  | .number n _ => IsMagnitude { n with negative := false }
  | .string .. => True
  | .node head children _ _ => head.isNegative = false ∧ head.WellFormed ∧ AllWellFormed children

/-- All of the trees are well-formed. -/
def AllWellFormed : List Expr → Prop
  | [] => True
  | e :: es => e.WellFormed ∧ AllWellFormed es

end

/-- The tree of `f["\"", -2.5][f[]]`. -/
def curried : Expr :=
  let f := symbol "f" .zero
  let arguments := [string "\"" .zero, number ⟨"2.5", true, 10, none, 0⟩ .zero]
  .node (.node f arguments false .zero) [.node f [] false .zero] false .zero

theorem isMagnitude_curried : IsMagnitude ⟨"2.5", false, 10, none, 0⟩ := by
  refine ⟨⟨.number, "2.5", .ofOffsets 0 3⟩, .ofOffsets 3 3, ?_, rfl, ?_⟩
  · decide +kernel
  · decide +kernel

theorem isName_curried : IsName "f" := by
  refine ⟨⟨.ofOffsets 0 1, .ofOffsets 1 1, ?_⟩, rfl⟩
  decide +kernel

theorem wellFormed_curried : curried.WellFormed := by
  simp only [curried, WellFormed, AllWellFormed, isNegative]
  exact ⟨trivial, ⟨trivial, isName_curried, trivial, isMagnitude_curried, trivial⟩,
    ⟨trivial, isName_curried, trivial⟩, trivial⟩

end Expr

namespace FullForm

/-! ## Spelling -/

mutual

/-- The tokens spell the tree. -/
inductive Spells : Expr → List Token → Prop where
  | symbol {name : String} {loc : Location} {t : Token} (kind : t.kind = .symbol)
      (text : t.text = name) (canonical : Expr.canonicalName name = name) :
      Spells (.symbol name loc) [t]
  | string {value : String} {loc : Location} {t : Token} (kind : t.kind = .string)
      (text : t.text = value) : Spells (.string value loc) [t]
  | number {n : Number} {loc : Location} {t : Token} (kind : t.kind = .number)
      (literal : Number.ofLiteral? t.text = some n) (sign : n.negative = false) :
      Spells (.number n loc) [t]
  | negative {n : Number} {loc : Location} {minus t : Token} (minusKind : minus.kind = .minus)
      (kind : t.kind = .number)
      (literal : Number.ofLiteral? t.text = some { n with negative := false })
      (sign : n.negative = true) : Spells (.number n loc) [minus, t]
  | node {head : Expr} {children : List Expr} {parenthesized : Bool} {loc : Location}
      {headTokens childTokens : List Token} {opening closing : Token}
      (positive : head.isNegative = false) (spellsHead : Spells head headTokens)
      (openingKind : opening.kind = .leftBracket) (spellsChildren : SpellsAll children childTokens)
      (closingKind : closing.kind = .rightBracket) :
      Spells (.node head children parenthesized loc)
        (headTokens ++ opening :: (childTokens ++ [closing]))

/-- The tokens spell the trees, with commas between them. -/
inductive SpellsAll : List Expr → List Token → Prop where
  | nil : SpellsAll [] []
  | cons {e : Expr} {es : List Expr} {tokens afterTokens : List Token} (first : Spells e tokens)
      (after : SpellsAfter es afterTokens) : SpellsAll (e :: es) (tokens ++ afterTokens)

/-- The tokens spell the trees, with a comma before each of them. -/
inductive SpellsAfter : List Expr → List Token → Prop where
  | nil : SpellsAfter [] []
  | cons {e : Expr} {es : List Expr} {comma : Token} {tokens afterTokens : List Token}
      (commaKind : comma.kind = .comma) (first : Spells e tokens)
      (after : SpellsAfter es afterTokens) :
      SpellsAfter (e :: es) (comma :: (tokens ++ afterTokens))

end

/-! ## Scanning -/

open Scan

/-- A sign is written before the number. -/
theorem characters_of_negative {n : Number} (h : n.negative = true) :
    n.characters = '-' :: { n with negative := false }.characters := by
  simp [Number.characters, h]

theorem atBoundary_fullFormsAfter (es : List Expr) {tail : List Char} (htail : AtBoundary tail) :
    AtBoundary (Expr.fullFormsAfter es ++ tail) := by
  cases es with
  | nil => exact htail
  | cons e es => exact atBoundary_cons (by decide)

theorem exists_scans_number {n : Number} {loc : Location} {tail : List Char}
    (h : Expr.IsMagnitude { n with negative := false }) (htail : AtBoundary tail) (offset : Nat) :
    ∃ tokens offset', Spells (.number n loc) tokens ∧
      Scans ⟨offset, n.characters ++ tail⟩ tokens ⟨offset', tail⟩ := by
  obtain ⟨t, stop, htokens, hkind, hliteral⟩ := h
  obtain ⟨hstarts, hsplit, hnumber⟩ := literal_of_tokenize htokens hkind hliteral
  have hread : Number.ofLiteral? (.ofList { n with negative := false }.characters) =
      some { n with negative := false } := by
    rw [Number.ofLiteral?, String.toList_ofList, hnumber]
  by_cases hnegative : n.negative = true
  · -- two tokens, a sign and the number without it
    rw [characters_of_negative hnegative, List.cons_append]
    obtain ⟨_, _, -, -, happend⟩ := exists_of_startsNumeral hstarts
    obtain ⟨minus, hminus, hsign⟩ := scans_minus offset (happend tail)
    obtain ⟨t', hkind', htext, hscans⟩ := scans_numeral htail hstarts hsplit (offset + 1)
    exact ⟨[minus, t'], _, .negative hminus hkind' (htext ▸ hread) hnegative, hsign.trans hscans⟩
  · -- one token, as the number has no sign to leave out
    have hsame : { n with negative := false } = n := by
      rw [Bool.not_eq_true] at hnegative
      rw [← hnegative]
    rw [hsame] at hstarts hsplit hread
    obtain ⟨t', hkind', htext, hscans⟩ := scans_numeral htail hstarts hsplit offset
    exact ⟨[t'], _, .number hkind' (htext ▸ hread) (by simpa using hnegative), hscans⟩

mutual

/-- Scanning the full form of a tree gives tokens that spell the tree. -/
theorem exists_scans_fullForm : ∀ (e : Expr), e.WellFormed → ∀ {tail : List Char},
    AtBoundary tail → ∀ offset : Nat, ∃ tokens offset', Spells e tokens ∧
      Scans ⟨offset, e.fullForm ++ tail⟩ tokens ⟨offset', tail⟩
  | .symbol name loc, h, tail, htail, offset => by
    rw [Expr.WellFormed] at h
    obtain ⟨⟨_, _, htokens⟩, hcanonical⟩ := h
    -- a name is scanned as it is alone, for what follows goes on with none
    obtain ⟨t, hkind, htext, hscans⟩ := scans_symbol htail htokens offset
    rw [Expr.fullForm]
    exact ⟨[t], _, .symbol hkind htext hcanonical, hscans⟩
  | .number n loc, h, tail, htail, offset => by
    rw [Expr.WellFormed] at h
    rw [Expr.fullForm]
    exact exists_scans_number h htail offset
  | .string value loc, _, tail, _, offset => by
    obtain ⟨t, hkind, htext, hscans⟩ := scans_string value tail offset
    rw [Expr.fullForm]
    exact ⟨[t], _, .string hkind htext, hscans⟩
  | .node head children parenthesized loc, h, tail, htail, offset => by
    rw [Expr.WellFormed] at h
    obtain ⟨hpositive, hhead, hchildren⟩ := h
    have htext : (Expr.node head children parenthesized loc).fullForm ++ tail =
        head.fullForm ++ '[' :: (Expr.fullForms children ++ ']' :: tail) := by
      simp [Expr.fullForm]
    -- the head stands before its bracket, and the children before the closing one
    have hcall : AtBoundary ('[' :: (Expr.fullForms children ++ ']' :: tail)) :=
      atBoundary_cons (by decide)
    have hend : AtBoundary (']' :: tail) := atBoundary_cons (by decide)
    obtain ⟨headTokens, offset₁, hspellsHead, hscansHead⟩ :=
      exists_scans_fullForm head hhead hcall offset
    obtain ⟨opening, hopening, hscansOpening⟩ :=
      scans_leftBracket offset₁ (Expr.fullForms children ++ ']' :: tail)
    obtain ⟨childTokens, offset₂, hspellsChildren, hscansChildren⟩ :=
      exists_scans_fullForms children hchildren hend (offset₁ + 1)
    obtain ⟨closing, hclosing, hscansClosing⟩ := scans_rightBracket offset₂ tail
    rw [htext]
    exact ⟨_, _, .node hpositive hspellsHead hopening hspellsChildren hclosing,
      hscansHead.trans (hscansOpening.trans (hscansChildren.trans hscansClosing))⟩

theorem exists_scans_fullForms : ∀ (es : List Expr), Expr.AllWellFormed es →
    ∀ {tail : List Char}, AtBoundary tail → ∀ offset : Nat,
    ∃ tokens offset', SpellsAll es tokens ∧
      Scans ⟨offset, Expr.fullForms es ++ tail⟩ tokens ⟨offset', tail⟩
  | [], _, tail, _, offset => by
    rw [Expr.fullForms]
    exact ⟨[], offset, .nil, rfl⟩
  | e :: es, h, tail, htail, offset => by
    rw [Expr.AllWellFormed] at h
    obtain ⟨hfirst, hafter⟩ := h
    -- the first form is scanned up to the comma or bracket behind it
    obtain ⟨tokens, offset₁, hspells, hscans⟩ :=
      exists_scans_fullForm e hfirst (atBoundary_fullFormsAfter es htail) offset
    obtain ⟨afterTokens, offset₂, hspellsAfter, hscansAfter⟩ :=
      exists_scans_fullFormsAfter es hafter htail offset₁
    rw [Expr.fullForms, List.append_assoc]
    exact ⟨_, _, .cons hspells hspellsAfter, hscans.trans hscansAfter⟩

theorem exists_scans_fullFormsAfter : ∀ (es : List Expr), Expr.AllWellFormed es →
    ∀ {tail : List Char}, AtBoundary tail → ∀ offset : Nat,
    ∃ tokens offset', SpellsAfter es tokens ∧
      Scans ⟨offset, Expr.fullFormsAfter es ++ tail⟩ tokens ⟨offset', tail⟩
  | [], _, tail, _, offset => by
    rw [Expr.fullFormsAfter]
    exact ⟨[], offset, .nil, rfl⟩
  | e :: es, h, tail, htail, offset => by
    rw [Expr.AllWellFormed] at h
    obtain ⟨hfirst, hafter⟩ := h
    obtain ⟨comma, hcomma, hscansComma⟩ :=
      scans_comma offset (' ' :: (e.fullForm ++ (Expr.fullFormsAfter es ++ tail)))
    -- a comma, a space and the next full form
    have hspace := Scans.space (offset + 1) (e.fullForm ++ (Expr.fullFormsAfter es ++ tail))
    obtain ⟨tokens, offset₁, hspells, hscans⟩ :=
      exists_scans_fullForm e hfirst (atBoundary_fullFormsAfter es htail) (offset + 1 + 1)
    obtain ⟨afterTokens, offset₂, hspellsAfter, hscansAfter⟩ :=
      exists_scans_fullFormsAfter es hafter htail offset₁
    rw [Expr.fullFormsAfter, List.cons_append, List.cons_append, List.append_assoc]
    exact ⟨_, _, .cons hcomma hspells hspellsAfter,
      hscansComma.trans (hspace.trans (hscans.trans hscansAfter))⟩

end

/-- The full form of a tree is scanned as tokens that spell the tree, up to the end. -/
theorem exists_tokenize_text {e : Expr} (h : e.WellFormed) :
    ∃ tokens stop, Spells e tokens ∧ tokenize e.text = .ok (tokens ++ [.endOfInput stop]) := by
  obtain ⟨tokens, offset, hspells, hscans⟩ := exists_scans_fullForm e h atBoundary_nil 0
  refine ⟨tokens, .ofOffsets offset offset, hspells, tokenize_of_scans ?_⟩
  rw [Expr.text, String.toList_ofList]
  rw [List.append_nil] at hscans
  exact hscans

end FullForm

end Symbolic
