/-
CilProbe/Bytes/Hex.lean

Bytes as text: two small hexadecimal digits a byte, and a 64-bit digest by
which long runs of bytes can be told apart.
-/
namespace CilProbe.Hex

/-! ### Digits -/

/-- The digit for a number below sixteen. -/
def digit (n : UInt8) : Char := Char.ofNat (n.toNat + if n < 10 then 48 else 87)

/-- The number that the code of a digit stands for. -/
def value (code : UInt8) : UInt8 := if code < 97 then code - 48 else code - 87

/-! ### Text -/

/-- The digits of bytes. -/
def encode (bytes : List UInt8) : String :=
  bytes.foldl (fun text b => (text.push (digit (b / 16))).push (digit (b % 16))) ""

/-- The bytes in front of `done` that the first `count` pairs of digits stand for. -/
def decodeBefore (codes : ByteArray) : Nat → List UInt8 → List UInt8
  | 0, done => done
  | count + 1, done =>
    let high := value (codes[2 * count]?.getD 0)
    let low := value (codes[2 * count + 1]?.getD 0)
    decodeBefore codes count ((high * 16 + low) :: done)

/-- The bytes that digits stand for. -/
def decode (text : String) : List UInt8 := decodeBefore text.toUTF8 (text.utf8ByteSize / 2) []

/-! ### Digest -/

/-- The digest of no bytes. -/
def digestSeed : UInt64 := 0xcbf29ce484222325

/-- The factor that every byte multiplies the digest by. -/
def digestFactor : UInt64 := 0x100000001b3

/-- The digest of bytes (FNV-1a). -/
def digest (bytes : List UInt8) : UInt64 :=
  bytes.foldl (fun d b => (d ^^^ b.toUInt64) * digestFactor) digestSeed

end CilProbe.Hex
