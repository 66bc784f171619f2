import Mathlib.Algebra.BigOperators.Group.List.Basic
import Mathlib.Data.Rat.Defs
import Mathlib.Tactic.Ring
import Symbolic.Operator.Standard
import Symbolic.Expr.Make
import Symbolic.Number.Basic

/-!
# The value of an arithmetic expression

Sums, products and reciprocals have a rational value once the symbols have. There are no
differences, quotients or signs in a tree: the reader makes sums and products of them, puts a
sign into a number, and lets a flat node take up the children of another. None of this changes
the value.

## Key results

- `value?_make_plus`, `value?_make_times`: taking up children adds and multiplies as before
- `value?_quotient`, `value?_negate`: reciprocals divide, and signs negate
-/

namespace Symbolic

/-! ## Integers -/

namespace Number

/-- The integer that a number stands for, if it has neither a point, nor a precision, nor a
    negative exponent. -/
def integer? (n : Number) : Option Int :=
  if n.precision = none ∧ 0 ≤ n.exponent.toInt then
    (Text.digitsValue? n.base.toNat n.digits.toList).map fun digits : Nat =>
      let magnitude : Int := digits * n.base.toNat ^ n.exponent.toInt.toNat
      if n.negative then -magnitude else magnitude
  else none

/-- Minus one is an integer. -/
theorem integer?_neg_one : (ofInt (-1)).integer? = some (-1) := by
  rfl

/-- A sign makes the opposite integer of a number. -/
theorem integer?_negative {n : Number} (hn : n.negative = false) :
    { n with negative := true }.integer? = n.integer?.map (- ·) := by
  unfold integer?
  by_cases h : n.precision = none ∧ 0 ≤ n.exponent.toInt
  · rw [if_pos h, if_pos h, Option.map_map]
    simp only [hn, if_true, Bool.false_eq_true, if_false, Function.comp_def]
  · rw [if_neg h, if_neg h, Option.map_none]

end Number

namespace Expr

/-! ## Values -/

/-- The value of a function applied to values. -/
def applied? (head : String) (args : List ℚ) : Option ℚ :=
  match head, args with
  | "Plus", _ => some args.sum
  | "Times", _ => some args.prod
  | "Power", [base, exponent] => if exponent = -1 then some base⁻¹ else none
  | _, _ => none

variable (σ : String → ℚ)

mutual

/-- The value of an expression, where the symbols have the values `σ`. -/
def value? : Expr → Option ℚ
  | .symbol name _ => some (σ name)
  | .number n _ => n.integer?.map Int.cast
  | .string .. => none
  | .node (.symbol head _) children _ _ => (values? children).bind (applied? head)
  | .node .. => none

/-- The values of all expressions. -/
def values? : List Expr → Option (List ℚ)
  | [] => some []
  | e :: es => (value? e).bind fun v => (values? es).map (v :: ·)

end

variable {σ}

/-- The values of operands are found one by one. -/
theorem values?_cons {e : Expr} {es : List Expr} {v : ℚ} {vs : List ℚ}
    (he : e.value? σ = some v) (hes : values? σ es = some vs) :
    values? σ (e :: es) = some (v :: vs) := by
  rw [values?, he, hes]
  rfl

/-- The values of two lists of operands are found one after the other. -/
theorem values?_append {es es' : List Expr} {vs vs' : List ℚ} (hes : values? σ es = some vs)
    (hes' : values? σ es' = some vs') : values? σ (es ++ es') = some (vs ++ vs') := by
  induction es generalizing vs with
  | nil =>
    rw [values?] at hes
    cases hes
    exact hes'
  | cons e es ih =>
    simp only [values?, Option.bind_eq_some_iff, Option.map_eq_some_iff] at hes
    obtain ⟨v, he, ws, hws, rfl⟩ := hes
    exact values?_cons he (ih hws)

/-- Where an expression stands, and in what brackets, does not change its value. -/
@[simp] theorem value?_withLoc (e : Expr) (loc : Location) :
    (e.withLoc loc).value? σ = e.value? σ := by
  cases e with
  | node head => cases head <;> rfl
  | _ => rfl

/-- The tree of minus one has its value. -/
@[simp] theorem value?_integer_neg_one (loc : Location) :
    (integer (-1) loc).value? σ = some (-1) := by
  rw [integer, value?, Number.integer?_neg_one]
  simp

/-! ## Making nodes -/

section Flat

variable {head : String} {total : List ℚ → ℚ}

/-- What an expression contributes to a flat node amounts to the expression. -/
theorem values?_contribution (htotal : ∀ vs, applied? head vs = some (total vs))
    (hone : ∀ v, total [v] = v) {e : Expr} {v : ℚ} (h : e.value? σ = some v) :
    ∃ vs, values? σ (contribution head e) = some vs ∧ total vs = v := by
  unfold contribution
  by_cases hopen : e.isOpenNode head = true
  · -- the children of an open node, which has the same head
    rw [if_pos hopen]
    simp only [isOpenNode, Bool.and_eq_true, beq_iff_eq] at hopen
    obtain ⟨hhead, -⟩ := hopen
    obtain ⟨name, _, children, _, _, rfl⟩ : ∃ name loc children parenthesized loc',
        e = .node (.symbol name loc) children parenthesized loc' := by
      cases e with
      | node inner => cases inner with
        | symbol => exact ⟨_, _, _, _, _, rfl⟩
        | _ => cases hhead
      | _ => cases hhead
    obtain rfl : name = head := Option.some.inj hhead
    rw [value?, Option.bind_eq_some_iff] at h
    obtain ⟨vs, hvs, hv⟩ := h
    rw [htotal] at hv
    exact ⟨vs, hvs, Option.some.inj hv⟩
  · -- any other expression stands for itself
    rw [if_neg hopen]
    exact ⟨[v], values?_cons h rfl, hone v⟩

/-- A node of an associative operation has the value of its operands, spliced or not. -/
theorem value?_make_flat (htotal : ∀ vs, applied? head vs = some (total vs))
    (hone : ∀ v, total [v] = v) {op : ℚ → ℚ → ℚ}
    (happend : ∀ vs ws, total (vs ++ ws) = op (total vs) (total ws)) {table : OperatorTable}
    (hflat : table.isFlat head = true) {e e' : Expr} {v w : ℚ} (he : e.value? σ = some v)
    (he' : e'.value? σ = some w) (loc : Location) :
    (make table head [e, e'] loc).value? σ = some (op v w) := by
  -- each side contributes a list of values, and the total of both is that of the two lists
  obtain ⟨vs, hvs, rfl⟩ := values?_contribution htotal hone he
  obtain ⟨ws, hws, rfl⟩ := values?_contribution htotal hone he'
  have hargs : arguments table head [e, e'] = contribution head e ++ contribution head e' := by
    simp [arguments, hflat]
  rw [make, hargs, value?, values?_append hvs hws]
  show applied? head (vs ++ ws) = _
  rw [htotal, happend]

end Flat

variable {e e' : Expr} {v w : ℚ}

/-- A sum has the sum of the values. -/
theorem value?_make_plus (he : e.value? σ = some v) (he' : e'.value? σ = some w)
    (loc : Location) : (make .standard "Plus" [e, e'] loc).value? σ = some (v + w) :=
  value?_make_flat (fun _ => rfl) (fun v => List.sum_singleton) (fun _ _ => List.sum_append)
    (by decide) he he' loc

/-- A product has the product of the values. -/
theorem value?_make_times (he : e.value? σ = some v) (he' : e'.value? σ = some w)
    (loc : Location) : (make .standard "Times" [e, e'] loc).value? σ = some (v * w) :=
  value?_make_flat (fun _ => rfl) (fun v => List.prod_singleton) (fun _ _ => List.prod_append)
    (by decide) he he' loc

/-- A power of minus one has the reciprocal value. -/
theorem value?_reciprocal (he : e.value? σ = some v) (sign loc : Location) :
    (make .standard "Power" [e, integer (-1) sign] loc).value? σ = some v⁻¹ := by
  -- powers are not flat, so both arguments stay as they are
  have hflat : OperatorTable.standard.isFlat "Power" = false := by decide
  have hargs : arguments .standard "Power" [e, integer (-1) sign] = [e, integer (-1) sign] := by
    simp [arguments, hflat]
  rw [make, hargs, value?, values?_cons he (values?_cons (value?_integer_neg_one sign) rfl)]
  rfl

/-- A product with a reciprocal has the quotient of the values. -/
theorem value?_quotient (he : e.value? σ = some v) (he' : e'.value? σ = some w)
    (sign loc loc' : Location) :
    (make .standard "Times" [e, make .standard "Power" [e', integer (-1) sign] loc] loc').value? σ =
      some (v / w) := by
  rw [value?_make_times he (value?_reciprocal he' sign loc), div_eq_mul_inv]

/-- A sign negates, whether it goes into a number or makes a product. -/
theorem value?_negate (he : e.value? σ = some v) (sign loc : Location) :
    (negate .standard "Times" e sign loc).value? σ = some (-v) := by
  have htimes : (make .standard "Times" [integer (-1) sign, e] loc).value? σ = some (-v) := by
    rw [value?_make_times (value?_integer_neg_one sign) he, neg_one_mul]
  unfold negate
  split
  · rename_i n _
    by_cases hn : n.negative = true
    · -- a number that has a sign already is multiplied
      rwa [if_pos hn]
    · -- the sign goes into the number
      rw [if_neg hn, value?, Number.integer?_negative (by simpa using hn)]
      simp only [value?, Option.map_eq_some_iff] at he
      obtain ⟨k, hk, rfl⟩ := he
      simp [hk]
  · exact htimes

/-- A sum with a negative has the difference of the values. -/
theorem value?_difference (he : e.value? σ = some v) (he' : e'.value? σ = some w)
    (sign loc loc' : Location) :
    (make .standard "Plus" [e, negate .standard "Times" e' sign loc] loc').value? σ =
      some (v - w) := by
  rw [value?_make_plus he (value?_negate he' sign loc), sub_eq_add_neg]

end Expr

end Symbolic
