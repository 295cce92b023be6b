/-
CilProbe/Body/Section.lean

The data sections behind a method's code, and the clause tables in them.  A
section starts with a four-byte header that gives its own size and says whether
another section follows; sections begin at multiples of four, counted from the
start of the body.  A clause table comes in a small format of twelve bytes a
clause and a fat one of twenty-four.
-/
import CilProbe.Bytes.LittleEndian
import CilProbe.Body.Clause
import CilProbe.Error

namespace CilProbe

namespace Section

/-! ### Headers -/

/-- The mark of a section that holds a clause table. -/
def clauseTable : Nat := 0x01

/-- The mark of a section in the fat format. -/
def fatFormat : Nat := 0x40

/-- The mark of a section that is followed by another. -/
def moreSections : Nat := 0x80

/-- Bytes of a section's header. -/
def headerSize : Nat := 4

/-- The first multiple of four from `n` on. -/
def align (n : Nat) : Nat := (n + 3) / 4 * 4

/-- The number in the `width` bytes from `offset` on. -/
def field (bytes : List UInt8) (offset width : Nat) : Nat :=
  LittleEndian.value ((bytes.drop offset).take width)

/-- Whether `mark` is set in the first byte of the section. -/
def hasMark (bytes : List UInt8) (mark : Nat) : Bool := field bytes 0 1 / mark % 2 == 1

/-- The size that a section claims, its header included: three bytes of it in
the fat format and one in the small. -/
def declaredSize (bytes : List UInt8) : Nat :=
  if hasMark bytes fatFormat then field bytes 1 3 else field bytes 1 1

/-! ### Clauses -/

/-- Bytes of a clause in the small format. -/
def smallClauseSize : Nat := 12

/-- Bytes of a clause in the fat format. -/
def fatClauseSize : Nat := 24

/-- A clause in the small format. -/
def smallClause (bytes : List UInt8) : Clause :=
  { flags := .ofNat (field bytes 0 2)
    tryOffset := .ofNat (field bytes 2 2)
    tryLength := .ofNat (field bytes 4 1)
    handlerOffset := .ofNat (field bytes 5 2)
    handlerLength := .ofNat (field bytes 7 1)
    classOrFilter := .ofNat (field bytes 8 4) }

/-- A clause in the fat format. -/
def fatClause (bytes : List UInt8) : Clause :=
  { flags := .ofNat (field bytes 0 4)
    tryOffset := .ofNat (field bytes 4 4)
    tryLength := .ofNat (field bytes 8 4)
    handlerOffset := .ofNat (field bytes 12 4)
    handlerLength := .ofNat (field bytes 16 4)
    classOrFilter := .ofNat (field bytes 20 4) }

/-- `count` clauses of `size` bytes each. -/
def clauses (size : Nat) (read : List UInt8 → Clause) : Nat → List UInt8 → List Clause
  | 0, _ => []
  | count + 1, bytes => read bytes :: clauses size read count (bytes.drop size)

/-- The clauses of one section; a section that holds no clause table has none,
and bytes too few for another clause are passed over. -/
def clausesIn (bytes : List UInt8) : List Clause :=
  let room := declaredSize bytes - headerSize
  let body := bytes.drop headerSize
  if !hasMark bytes clauseTable then []
  else if hasMark bytes fatFormat then clauses fatClauseSize fatClause (room / fatClauseSize) body
  else clauses smallClauseSize smallClause (room / smallClauseSize) body

/-! ### Chains of sections -/

/-- The clauses of the sections that start at `cursor`, where `bytes` is what
the body holds from there on.  Every section takes at least four bytes, so
`fuel` need not exceed the number of bytes. -/
def readChain : Nat → Nat → List UInt8 → Except Error (List Clause)
  | 0, _, _ => .error .outOfBounds
  | fuel + 1, cursor, bytes =>
    if (bytes.take headerSize).length < headerSize then .error .outOfBounds
    else
      let size := declaredSize bytes
      if size < headerSize ∨ (bytes.take size).length < size then
        .error (.malformed (.sectionSize size cursor))
      else if hasMark bytes moreSections then
        -- the next section is aligned in the body, not in the chain
        let next := align (cursor + size)
        match readChain fuel next (bytes.drop (next - cursor)) with
        | .ok later => .ok (clausesIn bytes ++ later)
        | .error e => .error e
      else .ok (clausesIn bytes)

/-- The clauses of all sections of a body, of which the first starts at
`cursor`. -/
def readAll (body : List UInt8) (cursor : Nat) : Except Error (List Clause) :=
  readChain (body.length + 1) cursor (body.drop cursor)

/-! ### Writing -/

/-- The bytes of a clause in the small format. -/
def smallBytes (c : Clause) : List UInt8 :=
  LittleEndian.encode 2 c.flags.toNat ++ LittleEndian.encode 2 c.tryOffset.toNat ++
    LittleEndian.encode 1 c.tryLength.toNat ++ LittleEndian.encode 2 c.handlerOffset.toNat ++
    LittleEndian.encode 1 c.handlerLength.toNat ++ LittleEndian.encode 4 c.classOrFilter.toNat

/-- The bytes of a clause in the fat format. -/
def fatBytes (c : Clause) : List UInt8 :=
  LittleEndian.encode 4 c.flags.toNat ++ LittleEndian.encode 4 c.tryOffset.toNat ++
    LittleEndian.encode 4 c.tryLength.toNat ++ LittleEndian.encode 4 c.handlerOffset.toNat ++
    LittleEndian.encode 4 c.handlerLength.toNat ++ LittleEndian.encode 4 c.classOrFilter.toNat

/-- A section that holds the clauses, in the small format where it has room for
them. -/
def write (clauses : List Clause) : Except Error (List UInt8) :=
  let smallSize := headerSize + clauses.length * smallClauseSize
  let fatSize := headerSize + clauses.length * fatClauseSize
  if smallSize ≤ 0xFF ∧ clauses.all Clause.fitsSmall then
    .ok (LittleEndian.encode 1 clauseTable ++ LittleEndian.encode 1 smallSize ++
      LittleEndian.encode 2 0 ++ clauses.flatMap smallBytes)
  else if 0xFFFFFF < fatSize then .error (.malformed (.tooManyClauses clauses.length))
  else
    .ok (LittleEndian.encode 1 (clauseTable + fatFormat) ++ LittleEndian.encode 3 fatSize ++
      clauses.flatMap fatBytes)

end Section

end CilProbe
