/-
CilProbe/Cil/Offset.lean

Positions in method code.  A position is a 32-bit word; adding a length never
wraps but stops at the last position, and the distance between two positions
is zero where the second one comes first.
-/
namespace CilProbe

/-- A position in method code, counted in bytes from its beginning. -/
abbrev Offset := UInt32

namespace Offset

/-! ### Positions as numbers -/

/-- The largest position. -/
def last : Nat := 0xFFFFFFFF

/-- The position `n`, if there is one. -/
def ofNat? (n : Nat) : Option Offset := if n ≤ last then some (UInt32.ofNat n) else none

/-- The position `i`, if there is one. -/
def ofInt? : Int → Option Offset
  | .ofNat n => ofNat? n
  | .negSucc _ => none

theorem toNat_of_ofNat? {n : Nat} {o : Offset} (h : ofNat? n = some o) : o.toNat = n := by
  unfold ofNat? at h
  split at h
  · next hn =>
    cases h
    rw [UInt32.toNat_ofNat']
    exact Nat.mod_eq_of_lt (by unfold last at hn; omega)
  · cases h

/-! ### Lengths -/

/-- The position `length` bytes further on, or the last one if that is beyond
all positions. -/
def after (o : Offset) (length : Nat) : Offset := UInt32.ofNat (min (o.toNat + length) last)

/-- How many bytes lie between `start` and a later position `stop`. -/
def distance (start stop : Offset) : UInt32 := UInt32.ofNat (stop.toNat - start.toNat)

@[simp] theorem toNat_after (o : Offset) (length : Nat) :
    (o.after length).toNat = min (o.toNat + length) last := by
  unfold after
  rw [UInt32.toNat_ofNat']
  exact Nat.mod_eq_of_lt (by unfold last; omega)

@[simp] theorem toNat_distance (start stop : Offset) :
    (distance start stop).toNat = stop.toNat - start.toNat := by
  unfold distance
  rw [UInt32.toNat_ofNat']
  exact Nat.mod_eq_of_lt (by have := stop.toNat_lt; omega)

end Offset

end CilProbe
