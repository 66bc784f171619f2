import Symbolic.Proofs.FullForm.Image
import Symbolic.Proofs.FullForm.Reading
import Symbolic.Proofs.Reader.Memory
import Symbolic.Proofs.Trees.Reading

/-!
# Reading what was read and written

The tree of a text is written in full form and read again. If no negative number is applied to
anything there, and every name stands for itself, the tree that is read has the same full form. A
negative number as a head is written without brackets, so its sign is then read as that of the
whole application; and a letter-like sign for a constant, as the name of a pattern, is then read
as the constant.

## Key results

- `Expr.Scannable.wellFormed`: what keeps a tree from being read back
- `exists_read_of_read`: the full form of what was read
-/

namespace Symbolic

namespace Expr

/-! ## Faithful trees -/

mutual

/-- Whether names stand for themselves, and no negative number is applied to anything. -/
def isFaithful : Expr → Bool
  | .symbol name _ => canonicalName name == name
  | .node head children _ _ => !head.isNegative && head.isFaithful && allFaithful children
  | _ => true

/-- Whether all of the trees are so. -/
def allFaithful : List Expr → Bool
  | [] => true
  | e :: es => e.isFaithful && allFaithful es

end

mutual

theorem Scannable.wellFormed : ∀ {e : Expr}, e.Scannable → e.isFaithful = true → e.WellFormed
  | .symbol name _, hplain, hfaithful => by
    have hname := Name.exists_tokenize_of_isPlain hplain
    rw [String.ofList_toList] at hname
    rw [isFaithful, beq_iff_eq] at hfaithful
    exact ⟨hname, hfaithful⟩
  | .number .., hmagnitude, _ => hmagnitude
  | .string .., _, _ => trivial
  | .node head children _ _, ⟨hhead, hchildren⟩, hfaithful => by
    rw [isFaithful, Bool.and_eq_true, Bool.and_eq_true, Bool.not_eq_true'] at hfaithful
    exact ⟨hfaithful.1.1, hhead.wellFormed hfaithful.1.2, hchildren.wellFormed hfaithful.2⟩

theorem AllScannable.wellFormed : ∀ {es : List Expr}, AllScannable es → allFaithful es = true →
    AllWellFormed es
  | [], _, _ => trivial
  | e :: es, ⟨hfirst, hafter⟩, hfaithful => by
    rw [allFaithful, Bool.and_eq_true] at hfaithful
    exact ⟨hfirst.wellFormed hfaithful.1, AllScannable.wellFormed hafter hfaithful.2⟩

end

/-! ## Full forms of outlines -/

mutual

theorem fullForm_outline : ∀ e : Expr, e.outline.fullForm = e.fullForm
  | .symbol .. => rfl
  | .number .. => rfl
  | .string .. => rfl
  | .node head children _ _ => by
    rw [outline, fullForm, fullForm, fullForm_outline head, fullForms_outlines children]

theorem fullForms_outlines : ∀ es : List Expr, fullForms (outlines es) = fullForms es
  | [] => rfl
  | e :: es => by
    rw [outlines, fullForms, fullForms, fullForm_outline e, fullFormsAfter_outlines es]

theorem fullFormsAfter_outlines : ∀ es : List Expr,
    fullFormsAfter (outlines es) = fullFormsAfter es
  | [] => rfl
  | e :: es => by
    rw [outlines, fullFormsAfter, fullFormsAfter, fullForm_outline e, fullFormsAfter_outlines es]

end

/-- Trees that differ in locations and the marks of brackets have the same full form. -/
theorem text_eq_of_outline {e e' : Expr} (h : e'.outline = e.outline) : e'.text = e.text := by
  rw [text, text, ← fullForm_outline e', h, fullForm_outline]

end Expr

/-! ## Whole texts -/

namespace FullForm

open Filter

/-- The tree of a text has plain names and numbers that are written as literals. -/
theorem scannable_of_read {limit : Nat} {source : String} {e : Expr}
    (h : read ⟨.standard, limit⟩ source = .ok (some e)) : e.Scannable := by
  unfold read at h
  split at h
  · cases h
  · rename_i tokens htokens
    split at h
    · cases h
    · rename_i e? hread
      obtain rfl : e? = some e := by simpa using h
      have hatoms : ∀ op ∈ OperatorTable.standard.operators, op.kind.isAtom = false := by
        decide
      have helement : Element .standard (fun _ => True) e _ :=
        Reader.element_of_readTokens hatoms (fun _ _ => trivial) hread
      -- the atoms of the tree are tokens of the text, and these have the texts of atoms
      refine helement.scannable fun t ht => ?_
      obtain ⟨hmem, hatom⟩ := List.mem_filter.mp ht
      exact Scan.atomText_of_mem_tokenize htokens ((List.takeWhile_sublist _).mem hmem) hatom

/-- With enough room for nesting, the full form of a faithful tree that was read is read as a tree
    with the same full form. -/
theorem exists_read_of_read {limit : Nat} {source : String} {e : Expr}
    (hread : read ⟨.standard, limit⟩ source = .ok (some e)) (hfaithful : e.isFaithful = true) :
    ∃ e', e'.text = e.text ∧ ∀ᶠ limit' in atTop,
      read ⟨.standard, limit'⟩ e.text = .ok (some e') := by
  obtain ⟨tokens, stop, hspells, htokenize⟩ :=
    exists_tokenize_text ((scannable_of_read hread).wellFormed hfaithful)
  obtain ⟨e', houtline, hread'⟩ := hspells.exists_read htokenize
  exact ⟨e', Expr.text_eq_of_outline houtline, hread'⟩

/-- The tree of `010^^5.[x_h, -#]`: the base is ten, which is not written. -/
def basedCall : Expr :=
  let pattern := Location.ofOffsets 8 11
  let slot := Expr.node (.symbol "Slot" (.ofOffsets 14 15)) [.integer 1 (.ofOffsets 14 15)] false
    (.ofOffsets 14 15)
  let blank := Expr.node (.symbol "Blank" pattern) [.symbol "h" pattern] false pattern
  .node (.number ⟨"5.", false, 10, none, 0⟩ (.ofOffsets 0 7))
    [.node (.symbol "Pattern" pattern) [.symbol "x" pattern, blank] false pattern,
      .node (.symbol "Times" (.ofOffsets 13 15)) [.integer (-1) (.ofOffsets 13 14), slot] false
        (.ofOffsets 13 15)]
    true (.ofOffsets 0 16)

theorem exists_read_of_read_basedCall : read {} "010^^5.[x_h, -#]" = .ok (some basedCall) ∧
    basedCall.isFaithful = true ∧ ∃ e', e'.text = basedCall.text ∧ ∀ᶠ limit in atTop,
      read ⟨.standard, limit⟩ basedCall.text = .ok (some e') := by
  have hread : read {} "010^^5.[x_h, -#]" = .ok (some basedCall) := by
    decide +kernel
  have hfaithful : basedCall.isFaithful = true := by
    decide
  exact ⟨hread, hfaithful, exists_read_of_read hread hfaithful⟩

/-- The tree of `(-2)[x]`. -/
def negativeCall : Expr :=
  .node (.number ⟨"2", true, 10, none, 0⟩ (.ofOffsets 1 3)) [.symbol "x" (.ofOffsets 5 6)] true
    (.ofOffsets 1 7)

/-- The tree of `-2[x]`, which is the full form of `(-2)[x]`. -/
def negatedCall : Expr :=
  let call := Expr.node (.integer 2 (.ofOffsets 1 2)) [.symbol "x" (.ofOffsets 3 4)] true
    (.ofOffsets 1 5)
  .node (.symbol "Times" (.ofOffsets 0 5)) [.integer (-1) (.ofOffsets 0 1), call] false
    (.ofOffsets 0 5)

/-- The full form of `(-2)[x]` is read as a product, however much room there is. -/
theorem not_exists_read_negativeCall : read {} "(-2)[x]" = .ok (some negativeCall) ∧
    ¬∃ e', e'.text = negativeCall.text ∧ ∀ᶠ limit in atTop,
      read ⟨.standard, limit⟩ negativeCall.text = .ok (some e') := by
  refine ⟨by decide +kernel, ?_⟩
  rintro ⟨e', htext, heventually⟩
  obtain ⟨tokens, htokens, htree⟩ : ∃ tokens, tokenize negativeCall.text = .ok tokens ∧
      Reader.Forgetful.readTokens {} tokens = .ok (some negatedCall) := by
    refine ⟨[⟨.minus, "-", .ofOffsets 0 1⟩, ⟨.number, "2", .ofOffsets 1 2⟩,
      ⟨.leftBracket, "[", .ofOffsets 2 3⟩, ⟨.symbol, "x", .ofOffsets 3 4⟩,
      ⟨.rightBracket, "]", .ofOffsets 4 5⟩, .endOfInput (.ofOffsets 5 5)], ?_, ?_⟩ <;>
    decide +kernel
  -- with the default room or more it is always the same product
  obtain ⟨limit, hread, hle⟩ := (heventually.and (eventually_ge_atTop 128)).exists
  have hproduct := Reader.readTokens_of_le hle htree (by simp)
  simp only [read, htokens, hproduct, Except.ok.injEq, Option.some.injEq] at hread
  subst hread
  revert htext
  decide

end FullForm

end Symbolic
