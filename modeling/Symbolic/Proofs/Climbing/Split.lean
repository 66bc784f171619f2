import Symbolic.Expr.Make

/-!
# Splitting a chain of operators

What a chain of operands with operators between them means: it is split at its weakest operator,
what stands before and after is built first, and the operator combines the two. Of operators that
are equally weak the last one is meant, unless they are right associative; then it is the first.

## Key results

- `pivot?_le`, `pivot?_eq_some_iff`: where a chain is split
- `splitTree_cons_append`: an operator with the operands that it takes to its right can be
  combined first
-/

namespace Symbolic.Climbing

/-- An operator with the operand after it. -/
abbrev Link := Operator × Expr

/-! ## Where a chain is split -/

/-- Whether a chain is split at `op` and not at `later`, an operator further right: if it is
    weaker, or as weak and right associative. -/
def splitsBefore (op later : Operator) : Bool :=
  op.precedence < later.precedence
    || (op.precedence == later.precedence && op.associativity == .right)

/-- The links before the operator at which a chain is split, the link of that operator, and the
    links after it. -/
def pivot? : List Link → Option (List Link × Link × List Link)
  | [] => none
  | link :: links =>
    match pivot? links with
    | none => some ([], link, links)
    | some (before, middle, after) =>
      if splitsBefore link.1 middle.1 then some ([], link, links)
      else some (link :: before, middle, after)

/-- A chain is split unless it has no operator. -/
theorem pivot?_eq_none_iff {links : List Link} : pivot? links = none ↔ links = [] := by
  cases links with
  | nil => simp [pivot?]
  | cons link links =>
    simp only [pivot?, reduceCtorEq, iff_false]
    split
    · simp
    · split <;> simp

/-- An operator is split at before a later one that binds more tightly, or as tightly when it is
    right associative. -/
theorem splitsBefore_iff {op later : Operator} :
    splitsBefore op later = true ↔ op.precedence < later.precedence ∨
      op.precedence = later.precedence ∧ op.associativity = .right := by
  simp [splitsBefore]

/-- A chain is split at an operator that binds no more tightly than the later one. -/
theorem precedence_le_of_splitsBefore {op later : Operator}
    (h : splitsBefore op later = true) : op.precedence ≤ later.precedence := by
  rcases splitsBefore_iff.mp h with hlt | ⟨heq, -⟩
  · exact UInt16.le_of_lt hlt
  · exact heq ▸ UInt16.le_refl _

/-- Otherwise the later one binds no more tightly. -/
theorem precedence_le_of_not_splitsBefore {op later : Operator}
    (h : splitsBefore op later = false) : later.precedence ≤ op.precedence := by
  rw [← UInt16.not_lt]
  intro hlt
  simp [splitsBefore_iff.mpr (.inl hlt)] at h

/-- An operator that goes before another goes before all that bind as tightly as that one. -/
theorem splitsBefore_of_le {a b c : Operator} (h : splitsBefore a b = true)
    (hle : b.precedence ≤ c.precedence) : splitsBefore a c = true := by
  rw [splitsBefore_iff] at h ⊢
  rcases h with hlt | ⟨heq, hright⟩
  · exact .inl (UInt16.lt_of_lt_of_le hlt hle)
  · rcases UInt16.lt_or_eq_of_le (heq ▸ hle) with hlt | heq'
    · exact .inl hlt
    · exact .inr ⟨heq', hright⟩

/-- No operator binds less tightly than the one that a chain is split at. -/
theorem pivot?_le {links before after : List Link} {link : Link}
    (h : pivot? links = some (before, link, after)) :
    ∀ l ∈ links, link.1.precedence ≤ l.1.precedence := by
  induction links generalizing before link after with
  | nil => simp [pivot?] at h
  | cons first links ih =>
    intro l hl
    unfold pivot? at h
    split at h
    · -- the only link of the chain
      rename_i hnone
      cases h
      obtain rfl := pivot?_eq_none_iff.mp hnone
      simp only [List.mem_singleton] at hl
      exact hl ▸ UInt16.le_refl _
    · rename_i b middle a hsome
      split at h
      · rename_i hsplits
        cases h
        -- the first link goes before where the others would be split, so before all of them
        rcases List.mem_cons.mp hl with rfl | hl
        · exact UInt16.le_refl _
        · exact precedence_le_of_splitsBefore (splitsBefore_of_le hsplits (ih hsome l hl))
      · rename_i hsplits
        cases h
        rcases List.mem_cons.mp hl with rfl | hl
        · exact precedence_le_of_not_splitsBefore (by simpa using hsplits)
        · exact ih hsome l hl

/-- What a chain is split into makes it up again. -/
theorem append_of_pivot? {links before after : List Link} {link : Link}
    (h : pivot? links = some (before, link, after)) :
    links = before ++ link :: after ∧ (∀ l ∈ before, splitsBefore l.1 link.1 = false) ∧
      ∀ l ∈ after, splitsBefore link.1 l.1 = true := by
  induction links generalizing before link after with
  | nil => simp [pivot?] at h
  | cons first links ih =>
    unfold pivot? at h
    split at h
    · rename_i hnone
      cases h
      -- the last link is the pivot, as nothing follows it
      obtain rfl := pivot?_eq_none_iff.mp hnone
      simp
    · rename_i b middle a hsome
      split at h
      · rename_i hsplits
        cases h
        refine ⟨rfl, by simp, fun l hl => ?_⟩
        -- the first link binds more weakly than the pivot of the others, and so than all of them
        exact splitsBefore_of_le hsplits (pivot?_le hsome l hl)
      · rename_i hsplits
        cases h
        -- the pivot of the others stays the pivot
        obtain ⟨rfl, hbefore, hafter⟩ := ih hsome
        refine ⟨rfl, fun l hl => ?_, hafter⟩
        rcases List.mem_cons.mp hl with rfl | hl
        · simpa using hsplits
        · exact hbefore l hl

/-- A chain is split at the one operator that goes before all operators after it, while none
    before it does. -/
theorem pivot?_eq_some_iff {links before after : List Link} {link : Link} :
    pivot? links = some (before, link, after) ↔ links = before ++ link :: after ∧
      (∀ l ∈ before, splitsBefore l.1 link.1 = false) ∧
      ∀ l ∈ after, splitsBefore link.1 l.1 = true := by
  refine ⟨append_of_pivot?, ?_⟩
  rintro ⟨rfl, hbefore, hafter⟩
  induction before with
  | nil =>
    -- the link goes before all others, and so before the one at which these would be split
    rw [List.nil_append, pivot?]
    cases hpivot : pivot? after with
    | none => rfl
    | some cut =>
      obtain ⟨b, middle, a⟩ := cut
      have hmem : middle ∈ after := by
        rw [(append_of_pivot? hpivot).1]
        simp
      simp [hafter middle hmem]
  | cons first before ih =>
    rw [List.cons_append, pivot?, ih fun l hl => hbefore l (List.mem_cons_of_mem _ hl)]
    simp [hbefore first List.mem_cons_self]

/-! ## The tree of a chain -/

/-- The node of an operator over its two operands. -/
def combine (table : OperatorTable) (op : Operator) (lhs rhs : Expr) : Expr :=
  .make table op.head [lhs, rhs] (lhs.loc.union rhs.loc)

/-- The tree of a chain of links after the first operand. -/
def splitTree (table : OperatorTable) (first : Expr) (links : List Link) : Expr :=
  match _h : pivot? links with
  | none => first
  | some (before, (op, operand), after) =>
    combine table op (splitTree table first before) (splitTree table operand after)
termination_by links.length
decreasing_by
  all_goals
    rw [(append_of_pivot? _h).1]
    simp only [List.length_append, List.length_cons]
    omega

variable {table : OperatorTable}

/-- A chain without operators is its operand. -/
@[simp] theorem splitTree_nil (first : Expr) : splitTree table first [] = first := by
  rw [splitTree, pivot?]

/-- A chain is the combination of what it is split into. -/
theorem splitTree_of_pivot? {first : Expr} {links before after : List Link} {link : Link}
    (h : pivot? links = some (before, link, after)) :
    splitTree table first links =
      combine table link.1 (splitTree table first before) (splitTree table link.2 after) := by
  rw [splitTree, h]

/-! ## Combining an operator first -/

/-- An operator is split at before the ones that its right operand takes in. -/
theorem splitsBefore_of_rightPrecedence_le {op later : Operator} (hop : op.precedence < 65535)
    (h : op.rightPrecedence ≤ later.precedence) : splitsBefore op later = true := by
  rw [splitsBefore_iff]
  unfold Operator.rightPrecedence at h
  split at h
  · rename_i hright
    rcases UInt16.lt_or_eq_of_le h with hlt | heq
    · exact .inl hlt
    · exact .inr ⟨heq, hright⟩
  · -- the next precedence is higher, as there is one
    have hnext := Precedence.toNat_next op.precedence
    simp only [UInt16.lt_iff_toNat_lt, UInt16.le_iff_toNat_le, UInt16.reduceToNat] at hop h ⊢
    exact .inl (by omega)

/-- It is not split at before the ones that its right operand ends at. -/
theorem not_splitsBefore_of_lt_rightPrecedence {op later : Operator}
    (h : later.precedence < op.rightPrecedence) : splitsBefore op later = false := by
  rw [← Bool.not_eq_true, splitsBefore_iff]
  unfold Operator.rightPrecedence at h
  split at h
  · rename_i hright
    simp only [UInt16.lt_iff_toNat_lt, ← UInt16.toNat_inj] at h ⊢
    omega
  · rename_i hright
    -- the right operand of any other operator starts one precedence above it
    have hnext := Precedence.toNat_next op.precedence
    simp only [UInt16.lt_iff_toNat_lt] at h ⊢
    rintro (hlt | ⟨-, hright'⟩)
    · omega
    · exact hright hright'

/-- An operator whose right operand takes in the links `taken`, all that bind tightly enough, can
    be combined with its operands before the rest of the chain is looked at. -/
theorem splitTree_cons_append {op : Operator} {first operand : Expr} {taken rest : List Link}
    (hop : op.precedence < 65535) (htaken : ∀ l ∈ taken, op.rightPrecedence ≤ l.1.precedence)
    (hrest : ∀ l ∈ rest.head?, l.1.precedence < op.rightPrecedence) :
    splitTree table first ((op, operand) :: (taken ++ rest)) =
      splitTree table (combine table op first (splitTree table operand taken)) rest := by
  -- induction on the rest: where it is split, the whole chain is, and the links before that
  -- point are a shorter rest
  induction hn : rest.length using Nat.strongRecOn generalizing rest with
  | _ n ih =>
    subst hn
    cases hpivot : pivot? rest with
    | none =>
      -- nothing is left, and the operator is the weakest of the chain
      obtain rfl := pivot?_eq_none_iff.mp hpivot
      have hsplit : pivot? ((op, operand) :: taken) = some ([], (op, operand), taken) :=
        pivot?_eq_some_iff.mpr ⟨rfl, by simp, fun l hl =>
          splitsBefore_of_rightPrecedence_le hop (htaken l hl)⟩
      rw [List.append_nil, splitTree_of_pivot? hsplit, splitTree_nil, splitTree_nil]
    | some cut =>
      obtain ⟨before, weakest, after⟩ := cut
      obtain ⟨hcut, hbefore, hafter⟩ := append_of_pivot? hpivot
      have hweak : weakest.1.precedence < op.rightPrecedence := by
        obtain ⟨l, links, rfl⟩ := List.exists_cons_of_ne_nil (l := rest) (by simp [hcut])
        exact UInt16.lt_of_le_of_lt (pivot?_le hpivot l (by simp)) (hrest l (by simp))
      -- the whole chain is split where its rest is
      have hsplit : pivot? ((op, operand) :: (taken ++ rest)) =
          some ((op, operand) :: (taken ++ before), weakest, after) := by
        refine pivot?_eq_some_iff.mpr ⟨by simp [hcut], fun l hl => ?_, hafter⟩
        rcases List.mem_cons.mp hl with rfl | hl
        · exact not_splitsBefore_of_lt_rightPrecedence hweak
        rcases List.mem_append.mp hl with hl | hl
        · -- what the operator takes binds more tightly than it does
          have hlt := UInt16.lt_of_lt_of_le hweak (htaken l hl)
          rw [← Bool.not_eq_true]
          intro hsplits
          exact UInt16.not_le.mpr hlt (precedence_le_of_splitsBefore hsplits)
        · exact hbefore l hl
      have hshorter : before.length < rest.length := by
        rw [hcut]
        simp only [List.length_append, List.length_cons]
        omega
      have hhead : ∀ l ∈ before.head?, l.1.precedence < op.rightPrecedence := by
        intro l hl
        refine hrest l ?_
        rw [hcut, List.head?_append, hl]
        rfl
      rw [splitTree_of_pivot? hsplit, splitTree_of_pivot? hpivot, ih _ hshorter hhead rfl]

end Symbolic.Climbing
