/-! # Precedence levels

Operators bind by a 16-bit level, a higher one more tightly. The operand on the side where
an operator does not chain with itself is read one level higher; that step stops at the
largest level. -/

namespace Symbolic

/-- How tightly an operator binds; higher binds tighter. -/
abbrev Precedence := UInt16

namespace Precedence

/-- The next tighter level, or the tightest level itself. -/
def next (p : Precedence) : Precedence :=
  if p = 65535 then p else p + 1

theorem toNat_next (p : Precedence) : p.next.toNat = min (p.toNat + 1) 65535 := by
  have h65535 : p.toNat < 65536 := p.toNat_lt
  unfold next
  split
  · rename_i h; subst h; decide
  · rename_i h
    have hne : p.toNat ≠ 65535 := fun h' => h (UInt16.toNat_inj.mp h')
    rw [UInt16.toNat_add]
    simp only [UInt16.toNat_one]
    omega

theorem le_next (p : Precedence) : p ≤ p.next := by
  have hlt : p.toNat < 65536 := p.toNat_lt
  rw [UInt16.le_iff_toNat_le, toNat_next]
  omega

end Precedence

end Symbolic
