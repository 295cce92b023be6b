/-
CilProbe/Cil/Instruction.lean

Instructions.  An instruction is an operation code with an operand and the
position it was read from; it is generic in what its branch targets are, since
decoded code branches to positions and code under edit branches to labels.
-/
import CilProbe.Cil.Offset
import CilProbe.Cil.OpcodeTable
import CilProbe.Decimal.Shortest
import CilProbe.Token

namespace CilProbe

/-! ### Operands -/

/-- The operand of an instruction, with branch targets of type `τ`. -/
inductive Operand (τ : Type) where
  /-- There is no operand. -/
  | none
  /-- A signed 8-bit number. -/
  | int8 (value : Int8)
  /-- An unsigned 8-bit number. -/
  | uint8 (value : UInt8)
  /-- An unsigned 16-bit number. -/
  | uint16 (value : UInt16)
  /-- A signed 32-bit number. -/
  | int32 (value : Int32)
  /-- A signed 64-bit number. -/
  | int64 (value : Int64)
  /-- The bits of a 32-bit floating-point number. -/
  | float32 (bits : UInt32)
  /-- The bits of a 64-bit floating-point number. -/
  | float64 (bits : UInt64)
  /-- A metadata token. -/
  | token (value : Token)
  /-- A branch target. -/
  | target (target : τ)
  /-- The targets of a jump table. -/
  | switch (targets : List τ)
  deriving DecidableEq, Repr

namespace Operand

variable {τ σ : Type}

/-- The branch targets in the operand. -/
def targets : Operand τ → List τ
  | .target t => [t]
  | .switch ts => ts
  | _ => []

/-- Replace every branch target, in order, by what `f` computes for it; the
first failure of `f` is the result. -/
def mapTargetsM {m : Type → Type} [Monad m] (f : τ → m σ) : Operand τ → m (Operand σ)
  | .none => pure .none
  | .int8 v => pure (.int8 v)
  | .uint8 v => pure (.uint8 v)
  | .uint16 v => pure (.uint16 v)
  | .int32 v => pure (.int32 v)
  | .int64 v => pure (.int64 v)
  | .float32 b => pure (.float32 b)
  | .float64 b => pure (.float64 b)
  | .token t => pure (.token t)
  | .target t => return .target (← f t)
  | .switch ts => return .switch (← ts.mapM f)

end Operand

/-! ### Instructions -/

/-- One instruction. -/
structure Instruction (τ : Type) where
  /-- Position the instruction was read from. -/
  offset : Offset
  /-- Operation code. -/
  opcode : Opcode
  /-- Operand. -/
  operand : Operand τ
  deriving DecidableEq, Repr

namespace Instruction

variable {τ : Type}

/-- An instruction that was not read from anywhere. -/
def new (opcode : Opcode) (operand : Operand τ) : Instruction τ := ⟨0, opcode, operand⟩

/-- Bytes of the instruction: its code, and the operand its code announces or
the jump table it has. -/
def size (i : Instruction τ) : Nat :=
  i.opcode.size +
    match i.operand with
    | .switch targets => 4 + 4 * targets.length
    | _ => i.opcode.info.operand.size

/-- The position after the instruction, whose bytes are counted in a 32-bit word. -/
def nextOffset (i : Instruction τ) : Offset := i.offset.after (i.size % 0x100000000)

/-! ### What an instruction does -/

/-- The local that the instruction loads. -/
def loadedLocal? (i : Instruction τ) : Option UInt16 :=
  let n := i.opcode.code.toNat
  if 0x06 ≤ n ∧ n ≤ 0x09 then some (UInt16.ofNat (n - 0x06))
  else
    match i.operand with
    | .uint8 slot => if i.opcode = Opcode.ldlocShort then some slot.toUInt16 else none
    | .uint16 slot => if i.opcode = Opcode.ldloc then some slot else none
    | _ => none

/-- The local that the instruction stores to. -/
def storedLocal? (i : Instruction τ) : Option UInt16 :=
  let n := i.opcode.code.toNat
  if 0x0A ≤ n ∧ n ≤ 0x0D then some (UInt16.ofNat (n - 0x0A))
  else
    match i.operand with
    | .uint8 slot => if i.opcode = Opcode.stlocShort then some slot.toUInt16 else none
    | .uint16 slot => if i.opcode = Opcode.stloc then some slot else none
    | _ => none

/-- The 32-bit constant that the instruction loads, in whichever form. -/
def constant? (i : Instruction τ) : Option Int32 :=
  let n := i.opcode.code.toNat
  if 0x15 ≤ n ∧ n ≤ 0x1E then some (Int32.ofInt ((n : Int) - 0x16))
  else
    match i.operand with
    | .int8 value => if i.opcode = Opcode.ldcShort then some value.toInt32 else none
    | .int32 value => if i.opcode = Opcode.ldc then some value else none
    | _ => none

/-- The token that the instruction refers to. -/
def token? (i : Instruction τ) : Option Token :=
  match i.operand with
  | .token t => some t
  | _ => none

/-! ### Local variables -/

/-- The shortest instruction that stores to the local `slot`. -/
def storeLocal (slot : UInt16) : Instruction τ :=
  if slot.toNat ≤ 3 then new ⟨UInt16.ofNat (Opcode.stloc0.code.toNat + slot.toNat)⟩ .none
  else if slot.toNat ≤ 255 then new Opcode.stlocShort (.uint8 slot.toUInt8)
  else new Opcode.stloc (.uint16 slot)

/-- The shortest instruction that loads the local `slot`. -/
def loadLocal (slot : UInt16) : Instruction τ :=
  if slot.toNat ≤ 3 then new ⟨UInt16.ofNat (Opcode.ldloc0.code.toNat + slot.toNat)⟩ .none
  else if slot.toNat ≤ 255 then new Opcode.ldlocShort (.uint8 slot.toUInt8)
  else new Opcode.ldloc (.uint16 slot)

/-! ### Text -/

/-- The operand as assembly text, where there is one. -/
def operandText (render : τ → String) : Operand τ → Option String
  | .none => none
  | .int8 v => some (toString v.toInt)
  | .uint8 v => some (toString v.toNat)
  | .uint16 v => some (toString v.toNat)
  | .int32 v => some (toString v.toInt)
  | .int64 v => some (toString v.toInt)
  | .float32 bits => some (Decimal.Format.single.render bits.toNat)
  | .float64 bits => some (Decimal.Format.double.render bits.toNat)
  | .token t => some t.display
  | .target t => some (render t)
  | .switch ts => some ("[" ++ ", ".intercalate (ts.map render) ++ "]")

/-- The instruction as a line of assembly text, with targets as decimal
positions. -/
def display (i : Instruction Offset) : String :=
  let head := s!"{Text.position i.offset.toNat}: {i.opcode.display}"
  match operandText (fun t => toString t.toNat) i.operand with
  | some text => head ++ " " ++ text
  | none => head

end Instruction

end CilProbe
