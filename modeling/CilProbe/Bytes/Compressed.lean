/-
CilProbe/Bytes/Compressed.lean

Compressed integers: one byte below 2⁷, two bytes below 2¹⁴ and four bytes
below 2²⁹, most significant byte first, the length marked in the top bits of
the first byte.  A coded token is a compressed integer that holds a row number
above two bits for the table.
-/
import CilProbe.Bytes.Reader

namespace CilProbe

namespace Compressed

/-- The largest number with a compressed form. -/
def limit : Nat := 0x1FFFFFFF

/-! ### Numbers -/

/-- The shortest compressed form of a number. -/
def encode (n : Nat) : Except Error (List UInt8) :=
  if n ≤ 0x7F then .ok [UInt8.ofNat n]
  else if n ≤ 0x3FFF then .ok [UInt8.ofNat (0x80 + n / 0x100), UInt8.ofNat n]
  else if n ≤ limit then
    .ok [UInt8.ofNat (0xC0 + n / 0x1000000), UInt8.ofNat (n / 0x10000), UInt8.ofNat (n / 0x100),
      UInt8.ofNat n]
  else .error (.malformed (.compressedTooLarge n))

/-- Read a compressed number, in its shortest form or a longer one. -/
def read : Reader Nat := do
  let lead ← Reader.byte
  if lead < 0x80 then return lead.toNat
  else if lead < 0xC0 then do
    let low ← Reader.byte
    return (lead.toNat - 0x80) * 0x100 + low.toNat
  else if lead < 0xE0 then do
    let b₂ ← Reader.byte
    let b₁ ← Reader.byte
    let b₀ ← Reader.byte
    return (lead.toNat - 0xC0) * 0x1000000 + b₂.toNat * 0x10000 + b₁.toNat * 0x100 + b₀.toNat
  else throw (.malformed (.compressedLead lead))

/-! ### Coded tokens -/

/-- The table that the two low bits of a coded token stand for. -/
def table? (tag : Nat) : Option UInt8 :=
  match tag with
  | 0 => some Token.typeDefTable
  | 1 => some Token.typeRefTable
  | 2 => some Token.typeSpecTable
  | _ => none

/-- The two bits that stand for a type table. -/
def tag? (table : UInt8) : Option Nat :=
  if table == Token.typeDefTable then some 0
  else if table == Token.typeRefTable then some 1
  else if table == Token.typeSpecTable then some 2
  else none

/-- Read a coded token. -/
def readToken : Reader Token := do
  let value ← read
  match table? (value % 4) with
  | some table => return Token.ofParts table (value / 4)
  | none => throw (.malformed (.codedTokenTag value))

/-- The coded form of a type token. -/
def encodeToken (t : Token) : Except Error (List UInt8) :=
  match tag? t.table with
  | some tag => encode (t.row * 4 + tag)
  | none => .error (.malformed (.notTypeToken t))

end Compressed

end CilProbe
