/-
CilProbe/Bytes/Written.lean

The outcome of writing bytes piece by piece: the bytes that came out, and the
error that stopped the writing if there was one.  Pieces are put together with
`++`, where nothing is written after a failure.
-/
import CilProbe.Error

namespace CilProbe

/-- Bytes written so far, and why no more were. -/
structure Written where
  /-- The bytes that came out, also before a failure. -/
  bytes : List UInt8
  /-- What stopped the writing. -/
  failure : Option Error
  deriving DecidableEq, Repr

namespace Written

/-- Bytes that could all be written. -/
def ok (bytes : List UInt8) : Written := ⟨bytes, none⟩

/-- Bytes that are written all at once or not at all. -/
def ofExcept : Except Error (List UInt8) → Written
  | .ok bytes => ⟨bytes, none⟩
  | .error e => ⟨[], some e⟩

/-- The bytes if nothing failed. -/
def toExcept (w : Written) : Except Error (List UInt8) :=
  match w.failure with
  | none => .ok w.bytes
  | some e => .error e

instance : Append Written where
  append a b := if a.failure.isSome then a else ⟨a.bytes ++ b.bytes, b.failure⟩

/-! ### Laws -/

@[simp] theorem ok_append_ok (a b : List UInt8) : ok a ++ ok b = ok (a ++ b) := rfl

@[simp] theorem toExcept_ok (bytes : List UInt8) : (ok bytes).toExcept = .ok bytes := rfl

end Written

end CilProbe
