/-
CilProbe/Cil/Boundary.lean

Finding instructions by their position: the number of the instruction that
starts at a position, and whether a position is a boundary between
instructions.  Boundaries are looked up by halving, which finds what is there
in any array that is in order.
-/
import Std.Data.HashMap
import CilProbe.Cil.Instruction

namespace CilProbe

/-! ### Numbers of instructions -/

/-- The number of each instruction by its position; of several instructions at
one position the last one counts. -/
def indexByOffset {τ : Type} (code : List (Instruction τ)) : Std.HashMap Offset Nat :=
  (code.foldl (fun (map, n) i => (map.insert i.offset n, n + 1))
    ((∅ : Std.HashMap Offset Nat), 0)).1

/-! ### Boundaries -/

/-- The positions between instructions, in code order, the end of the code
included. -/
structure Boundaries where
  /-- The positions. -/
  positions : Array Offset

namespace Boundaries

/-- The boundaries of code of the given size. -/
def of (code : List (Instruction Offset)) (size : Offset) : Boundaries :=
  ⟨((code.map Instruction.offset).toArray).push size⟩

/-- Narrow the `size` positions from `base` on down to the one where `offset`
must be if it is among them.  Every step about halves the size, so `fuel` need
not exceed it. -/
def narrow (b : Boundaries) (offset : Offset) : Nat → Nat → Nat → Nat
  | 0, base, _ => base
  | fuel + 1, base, size =>
    if size ≤ 1 then base
    else
      let half := size / 2
      let middle := base + half
      -- the half that is kept starts at `middle` unless that lies behind `offset`
      let base := if b.positions[middle]?.any (offset < ·) then base else middle
      narrow b offset fuel base (size - half)

/-- Whether a position is a boundary. -/
def contains (b : Boundaries) (offset : Offset) : Bool :=
  let size := b.positions.size
  b.positions[b.narrow offset size 0 size]? == some offset

end Boundaries

end CilProbe
