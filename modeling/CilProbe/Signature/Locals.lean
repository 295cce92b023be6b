/-
CilProbe/Signature/Locals.lean

Signatures of local variables.  Existing locals are kept as the bytes they came
in; new ones are added behind them, each with the next slot number.
-/
import CilProbe.Signature.Write

namespace CilProbe

/-- The locals of a method. -/
structure Locals where
  /-- How many there are. -/
  count : Nat
  /-- The bytes of their types. -/
  types : List UInt8
  deriving DecidableEq, Repr

namespace Locals

/-- No locals at all. -/
def none : Locals := ⟨0, []⟩

/-- Slot numbers end below this one. -/
def slotLimit : Nat := 65535

/-- Read a signature of locals, except for the bytes of the types, of which it
only checks that they are types: the answer is their number, the position where
they start, and the one where they end. -/
def readBounds : Reader (Nat × Nat × Nat) := do
  let lead ← Reader.byte
  unless lead.toNat = MethodSig.localsKind do throw (.malformed (.localsLead lead))
  let count ← Compressed.read
  let start ← Reader.position
  let _ ← Reader.times count TypeSig.read
  return (count, start, ← Reader.position)

/-- Read a signature of locals; no bytes at all mean that there are none. -/
def parse (blob : List UInt8) : Except Error Locals :=
  if blob.isEmpty then .ok none
  else
    match Reader.result readBounds blob with
    | .ok (count, start, stop) => .ok ⟨count, (blob.drop start).take (stop - start)⟩
    | .error e => .error e

/-- Add a local and answer with its slot.  Bytes written before a failure stay
where they are. -/
def push (l : Locals) (t : TypeSig) : Except Error UInt16 × Locals :=
  if slotLimit ≤ l.count then (.error (.malformed (.tooManyLocals l.count)), l)
  else
    let w := t.write
    match w.failure with
    | some e => (.error e, ⟨l.count, l.types ++ w.bytes⟩)
    | Option.none => (.ok (UInt16.ofNat l.count), ⟨l.count + 1, l.types ++ w.bytes⟩)

/-- The bytes of the signature. -/
def write (l : Locals) : Written :=
  .ok [UInt8.ofNat MethodSig.localsKind] ++ .number l.count ++ .ok l.types

/-- The bytes of the signature, if it can be written. -/
def encode (l : Locals) : Except Error (List UInt8) := l.write.toExcept

end Locals

end CilProbe
