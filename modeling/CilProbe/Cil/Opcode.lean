/-
CilProbe/Cil/Opcode.lean

Operation codes of the intermediate language.  A code is a 16-bit word: one
byte, or two bytes of which the first is `0xFE`.  Branches come in a short form
with an 8-bit displacement and a long form with a 32-bit one; `longForm` and
`shortForm` go from one to the other and leave every other code alone.
-/
import CilProbe.Text.Radix

namespace CilProbe

/-! ### What a code says about its instruction -/

/-- How the operand of an instruction is written. -/
inductive OperandKind where
  /-- There is no operand. -/
  | none
  /-- An 8-bit variable number. -/
  | shortVar
  /-- A 16-bit variable number. -/
  | var
  /-- A signed 8-bit number. -/
  | shortInt
  /-- A signed 32-bit number. -/
  | int32
  /-- A signed 64-bit number. -/
  | int64
  /-- A 32-bit floating-point number. -/
  | float32
  /-- A 64-bit floating-point number. -/
  | float64
  /-- A metadata token. -/
  | token
  /-- A signed 8-bit displacement. -/
  | shortBranch
  /-- A signed 32-bit displacement. -/
  | branch
  /-- A jump table: a count and that many 32-bit displacements. -/
  | switch
  deriving DecidableEq, Repr

/-- Bytes of an operand, the displacements of a jump table apart. -/
def OperandKind.size : OperandKind → Nat
  | .none => 0
  | .shortVar | .shortInt | .shortBranch => 1
  | .var => 2
  | .int32 | .float32 | .token | .branch | .switch => 4
  | .int64 | .float64 => 8

/-- What the kind is called where instructions are described. -/
def OperandKind.name : OperandKind → String
  | .none => "None"
  | .shortVar => "ShortVar"
  | .var => "Var"
  | .shortInt => "ShortInt"
  | .int32 => "Int32"
  | .int64 => "Int64"
  | .float32 => "Float32"
  | .float64 => "Float64"
  | .token => "Token"
  | .shortBranch => "ShortBranch"
  | .branch => "Branch"
  | .switch => "Switch"

/-- Where control goes after an instruction. -/
inductive Flow where
  /-- On to the next instruction. -/
  | sequential
  /-- To a target or on. -/
  | conditionalBranch
  /-- To a target. -/
  | unconditionalBranch
  /-- On, after another method has run. -/
  | call
  /-- Back to the caller. -/
  | ret
  /-- To one of many targets or on. -/
  | switch
  /-- To a handler. -/
  | throws
  /-- Back to where the finally handler was entered from. -/
  | endFinally
  /-- Back to the choice of a handler. -/
  | endFilter
  /-- Out of a protected range. -/
  | leave
  /-- To another method for good. -/
  | jump
  /-- On, where the next instruction is modified. -/
  | modifier
  deriving DecidableEq, Repr

/-- Whether control can go on to the next instruction. -/
def Flow.fallsThrough : Flow → Bool
  | .sequential | .conditionalBranch | .call | .switch | .modifier => true
  | _ => false

/-- What the flow is called where instructions are described. -/
def Flow.name : Flow → String
  | .sequential => "Sequential"
  | .conditionalBranch => "ConditionalBranch"
  | .unconditionalBranch => "UnconditionalBranch"
  | .call => "Call"
  | .ret => "Return"
  | .switch => "Switch"
  | .throws => "Throw"
  | .endFinally => "EndFinally"
  | .endFilter => "EndFilter"
  | .leave => "Leave"
  | .jump => "Jump"
  | .modifier => "Meta"

/-- How many values an instruction takes from the stack or puts on it. -/
inductive StackUse where
  /-- A fixed number. -/
  | slots (count : Nat)
  /-- As many as the signature involved says. -/
  | signature
  deriving DecidableEq, Repr

/-! ### Codes -/

/-- An operation code, known or not. -/
structure Opcode where
  /-- The code word; two-byte codes have `0xFE` in the high byte. -/
  code : UInt16
  deriving DecidableEq, Repr, Inhabited

namespace Opcode

/-- The byte that announces a second one. -/
def escape : UInt8 := 0xFE

/-- The code written as `lead` and `byte`, where a one-byte code has a zero
lead. -/
def ofBytes (lead byte : UInt8) : Opcode := ⟨UInt16.ofNat (lead.toNat * 0x100 + byte.toNat)⟩

/-- Whether the code takes two bytes. -/
def isTwoByte (op : Opcode) : Bool := op.code.toNat / 0x100 == escape.toNat

/-- Bytes of the code. -/
def size (op : Opcode) : Nat := if op.isTwoByte then 2 else 1

/-- The code as bytes. -/
def bytes (op : Opcode) : List UInt8 :=
  if op.isTwoByte then [escape, op.code.toUInt8] else [op.code.toUInt8]

/-! ### Codes with a role of their own -/

/-- Load the local of number zero; the next three codes load the next three. -/
def ldloc0 : Opcode := ⟨0x06⟩

/-- Store to the local of number zero; the next three codes store to the next
three. -/
def stloc0 : Opcode := ⟨0x0A⟩

/-- Load a local with an 8-bit number. -/
def ldlocShort : Opcode := ⟨0x11⟩

/-- Store to a local with an 8-bit number. -/
def stlocShort : Opcode := ⟨0x13⟩

/-- Load the constant minus one; the next nine codes load zero to eight. -/
def ldcM1 : Opcode := ⟨0x15⟩

/-- Load a constant of 8 bits. -/
def ldcShort : Opcode := ⟨0x1F⟩

/-- Load a constant of 32 bits. -/
def ldc : Opcode := ⟨0x20⟩

/-- Continue in another method. -/
def jmp : Opcode := ⟨0x27⟩

/-- Call a method. -/
def call : Opcode := ⟨0x28⟩

/-- Call through a pointer. -/
def calli : Opcode := ⟨0x29⟩

/-- Return to the caller. -/
def ret : Opcode := ⟨0x2A⟩

/-- Construct an instance. -/
def newobj : Opcode := ⟨0x73⟩

/-- Finish a finally or fault handler. -/
def endfinally : Opcode := ⟨0xDC⟩

/-- Leave a protected range, long form. -/
def leave : Opcode := ⟨0xDD⟩

/-- Leave a protected range, short form. -/
def leaveShort : Opcode := ⟨0xDE⟩

/-- Load a local with a 16-bit number. -/
def ldloc : Opcode := ⟨0xFE0C⟩

/-- Store to a local with a 16-bit number. -/
def stloc : Opcode := ⟨0xFE0E⟩

/-- Allocate stack memory. -/
def localloc : Opcode := ⟨0xFE0F⟩

/-- Let the next call replace the caller's frame. -/
def tail : Opcode := ⟨0xFE14⟩

/-- Throw the exception being handled once more. -/
def rethrow : Opcode := ⟨0xFE1A⟩

/-! ### Branch forms -/

/-- Whether the code is a branch to a single target, `leave` included. -/
def isBranch (op : Opcode) : Bool :=
  let n := op.code.toNat
  (0x2B ≤ n && n ≤ 0x44) || n == 0xDD || n == 0xDE

/-- Whether the code is the short form of a branch. -/
def isShortBranch (op : Opcode) : Bool :=
  let n := op.code.toNat
  (0x2B ≤ n && n ≤ 0x37) || n == 0xDE

/-- The long form of a short branch; any other code is its own long form. -/
def longForm (op : Opcode) : Opcode :=
  let n := op.code.toNat
  if 0x2B ≤ n ∧ n ≤ 0x37 then ⟨UInt16.ofNat (n + 0x0D)⟩
  else if n = 0xDE then leave
  else op

/-- The short form of a long branch; any other code is its own short form. -/
def shortForm (op : Opcode) : Opcode :=
  let n := op.code.toNat
  if 0x38 ≤ n ∧ n ≤ 0x44 then ⟨UInt16.ofNat (n - 0x0D)⟩
  else if n = 0xDD then leaveShort
  else op

end Opcode

end CilProbe
