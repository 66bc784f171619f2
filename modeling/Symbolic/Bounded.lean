/-! # Integers of bounded width

Integers that fit in a word, and nothing else, have a value there. Reading back the value of
a word gives the word. -/

namespace Symbolic.Bounded

/-- The 32-bit word without a sign of an integer that fits. -/
def word? (n : Int) : Option UInt32 :=
  if 0 ≤ n ∧ n < 4294967296 then some (.ofNat n.toNat) else none

/-- The 64-bit word with a sign of an integer that fits. -/
def long? (n : Int) : Option Int64 :=
  if -9223372036854775808 ≤ n ∧ n < 9223372036854775808 then some (.ofInt n) else none

theorem word?_toNat (w : UInt32) : word? w.toNat = some w := by
  have := w.toNat_lt
  rw [word?, if_pos (by omega)]
  simp

theorem long?_toInt (w : Int64) : long? w.toInt = some w := by
  have := w.le_toInt
  have := w.toInt_lt
  rw [long?, if_pos (by omega)]
  simp

end Symbolic.Bounded
