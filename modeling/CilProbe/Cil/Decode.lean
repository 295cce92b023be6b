/-
CilProbe/Cil/Decode.lean

Reading instructions from method code.  Displacements are resolved on the way:
a decoded branch names the position it goes to, counted from the start of the
code, where displacements count from the end of the instruction.
-/
import CilProbe.Bytes.Reader
import CilProbe.Cil.Instruction

namespace CilProbe

namespace Decode

/-! ### Operands -/

/-- The position that lies `displacement` bytes from `next`. -/
def branchTarget (next : Nat) (displacement : Int) : Reader Offset :=
  match Offset.ofInt? (next + displacement) with
  | some target => pure target
  | none => throw (.malformed (.targetOutOfRange (next + displacement)))

/-- The targets of a jump table; its displacements count from its end. -/
def jumpTable (offset : Offset) : Reader (List Offset) := do
  let cases ← Reader.word32
  unless ← Reader.hasAtLeast (4 * cases.toNat) do
    throw (.malformed (.switchTooLong offset cases.toNat))
  let displacements ← Reader.times cases.toNat Reader.int32
  let next ← Reader.position
  displacements.mapM fun d => branchTarget next d.toInt

/-- The operand of the instruction at `offset`, written as `kind` says. -/
def operand (offset : Offset) : OperandKind → Reader (Operand Offset)
  | .none => pure .none
  | .shortInt => return .int8 (← Reader.int8)
  | .shortVar => return .uint8 (← Reader.byte)
  | .var => return .uint16 (← Reader.word16)
  | .int32 => return .int32 (← Reader.int32)
  | .int64 => return .int64 (← Reader.int64)
  | .float32 => return .float32 (← Reader.word32)
  | .float64 => return .float64 (← Reader.word64)
  | .token => return .token ⟨← Reader.word32⟩
  | .shortBranch => do
    let displacement ← Reader.int8
    return .target (← branchTarget (← Reader.position) displacement.toInt)
  | .branch => do
    let displacement ← Reader.int32
    return .target (← branchTarget (← Reader.position) displacement.toInt)
  | .switch => return .switch (← jumpTable offset)

/-! ### Instructions -/

/-- The position of the reader as a position in code. -/
def here : Reader Offset := do
  match Offset.ofNat? (← Reader.position) with
  | some offset => return offset
  | none => throw (.malformed .positionTooLarge)

/-- An operation code of one or two bytes. -/
def opcode : Reader Opcode := do
  let lead ← Reader.byte
  if lead == Opcode.escape then return Opcode.ofBytes lead (← Reader.byte)
  else return Opcode.ofBytes 0 lead

/-- One instruction. -/
def instruction : Reader (Instruction Offset) := do
  let offset ← here
  let op ← opcode
  match op.info? with
  | none => throw (.malformed (.invalidOpcode op.code offset))
  | some info => return ⟨offset, op, ← operand offset info.operand⟩

/-- At most `count` instructions, until no byte is left, after those in `done`,
latest first. -/
def instructionsAfter : Nat → List (Instruction Offset) → Reader (List (Instruction Offset))
  | 0, done => pure done.reverse
  | count + 1, done => do
    if (← get).rest.isEmpty then return done.reverse
    let i ← instruction
    instructionsAfter count (i :: done)

/-- All instructions up to the end of the bytes; every instruction takes at
least one byte, so there are no more of them than bytes. -/
def instructions : Reader (List (Instruction Offset)) := do
  instructionsAfter (← get).remaining []

/-- At most `count` instructions from a cursor on, after those in `done`, latest
first, and the error that stopped reading with the cursor where it happened. -/
def readableAfter :
    Nat → List (Instruction Offset) → Cursor → List (Instruction Offset) × Option (Error × Cursor)
  | 0, done, _ => (done.reverse, none)
  | count + 1, done, c =>
    if c.rest.isEmpty then (done.reverse, none)
    else
      match instruction.start c with
      | (.ok i, c) => readableAfter count (i :: done) c
      | (.error e, c) => (done.reverse, some (e, c))

/-- The instructions that can be read from a cursor on, up to the end of the
bytes or to the first error. -/
def readable (c : Cursor) : List (Instruction Offset) × Option (Error × Cursor) :=
  readableAfter c.remaining [] c

end Decode

/-- The instructions of a method's code. -/
def decode (code : List UInt8) : Except Error (List (Instruction Offset)) :=
  Reader.result Decode.instructions code

end CilProbe
