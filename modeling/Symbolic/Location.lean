/-! # Locations in a source text

A location is a half-open range of byte offsets. Offsets have 32 bits; larger ones are
clamped to the largest representable offset. -/

namespace Symbolic

/-- A half-open range of byte offsets into the source text. -/
structure Location where
  start : UInt32
  stop : UInt32
deriving DecidableEq, Repr, Inhabited

namespace Location

/-- Clamps a byte offset to 32 bits. -/
def clamp (offset : Nat) : UInt32 :=
  .ofNat (min offset 4294967295)

theorem toNat_clamp (offset : Nat) : (clamp offset).toNat = min offset 4294967295 := by
  simp only [clamp, UInt32.toNat_ofNat']
  omega

/-- The location between two byte offsets, each clamped to 32 bits. -/
def ofOffsets (start stop : Nat) : Location :=
  ⟨clamp start, clamp stop⟩

/-- Offsets that fit are not clamped. -/
theorem toNat_ends {loc : Location} {start stop : Nat} (h : loc = .ofOffsets start stop)
    (hle : start ≤ stop) (hstop : stop < 4294967296) :
    loc.start.toNat = start ∧ loc.stop.toNat = stop := by
  rw [h, ofOffsets, toNat_clamp, toNat_clamp]
  omega

/-- The empty location at an offset. -/
def empty (offset : UInt32) : Location :=
  ⟨offset, offset⟩

/-- The location at the very start of a text, also used where locations are erased. -/
def zero : Location :=
  ⟨0, 0⟩

/-- The range from the earlier start to the later end of two locations. -/
def union (a b : Location) : Location :=
  ⟨min a.start b.start, max a.stop b.stop⟩

/-- `start:stop`, both in decimal. -/
def text (loc : Location) : String :=
  toString loc.start.toNat ++ ":" ++ toString loc.stop.toNat

end Location

end Symbolic
