/-
CilProbe/Bytes/Number.lean

Numbers of fixed width, with or without a sign, least significant byte first.
The bits of floating-point numbers are numbers without a sign.
-/
import CilProbe.Bytes.Reader

namespace CilProbe

/-- How a number is written. -/
structure NumberFormat where
  /-- Bytes it takes. -/
  width : Nat
  /-- Whether the upper half of the values stands for negative numbers. -/
  signed : Bool
  deriving DecidableEq, Repr, Inhabited

namespace NumberFormat

/-- The formats by name: the kind of number and its bits. -/
def named : List (String × NumberFormat) :=
  [("u8", ⟨1, false⟩), ("i8", ⟨1, true⟩), ("u16", ⟨2, false⟩), ("i16", ⟨2, true⟩),
    ("u32", ⟨4, false⟩), ("i32", ⟨4, true⟩), ("u64", ⟨8, false⟩), ("i64", ⟨8, true⟩),
    ("f32", ⟨4, false⟩), ("f64", ⟨8, false⟩)]

/-- How many values there are. -/
def range (f : NumberFormat) : Nat := Nat.pow 256 f.width

/-- The number that a value stands for. -/
def ofValue (f : NumberFormat) (n : Nat) : Int :=
  if f.signed && f.range ≤ 2 * n then (n : Int) - f.range else n

/-- Read a number. -/
def read (f : NumberFormat) : Reader Int := do return f.ofValue (← Reader.number f.width)

/-- Write a number; what does not fit is cut off. -/
def write (f : NumberFormat) (n : Int) : List UInt8 :=
  LittleEndian.encode f.width (n % f.range).toNat

end NumberFormat

end CilProbe
