/-
CilProbe/Cil/OpcodeTable.lean

The table of all defined operation codes: mnemonic, operand, flow of control,
and the values taken from and put on the stack.  Codes that are not in the
table are reserved.
-/
import CilProbe.Cil.Opcode

namespace CilProbe

/-- What the table says about one code. -/
structure OpcodeInfo where
  /-- The code itself. -/
  code : UInt16
  /-- The name in assembly text. -/
  mnemonic : String
  /-- How the operand is written. -/
  operand : OperandKind
  /-- Where control goes. -/
  flow : Flow
  /-- Values taken from the stack. -/
  pops : StackUse
  /-- Values put on the stack. -/
  pushes : StackUse
  deriving DecidableEq, Repr

namespace OpcodeInfo

/-! ### The table -/

/-- The codes of one byte. -/
def oneByte : List OpcodeInfo := [
    ⟨0x00, "nop", .none, .sequential, (.slots 0), (.slots 0)⟩,
    ⟨0x01, "break", .none, .sequential, (.slots 0), (.slots 0)⟩,
    ⟨0x02, "ldarg.0", .none, .sequential, (.slots 0), (.slots 1)⟩,
    ⟨0x03, "ldarg.1", .none, .sequential, (.slots 0), (.slots 1)⟩,
    ⟨0x04, "ldarg.2", .none, .sequential, (.slots 0), (.slots 1)⟩,
    ⟨0x05, "ldarg.3", .none, .sequential, (.slots 0), (.slots 1)⟩,
    ⟨0x06, "ldloc.0", .none, .sequential, (.slots 0), (.slots 1)⟩,
    ⟨0x07, "ldloc.1", .none, .sequential, (.slots 0), (.slots 1)⟩,
    ⟨0x08, "ldloc.2", .none, .sequential, (.slots 0), (.slots 1)⟩,
    ⟨0x09, "ldloc.3", .none, .sequential, (.slots 0), (.slots 1)⟩,
    ⟨0x0A, "stloc.0", .none, .sequential, (.slots 1), (.slots 0)⟩,
    ⟨0x0B, "stloc.1", .none, .sequential, (.slots 1), (.slots 0)⟩,
    ⟨0x0C, "stloc.2", .none, .sequential, (.slots 1), (.slots 0)⟩,
    ⟨0x0D, "stloc.3", .none, .sequential, (.slots 1), (.slots 0)⟩,
    ⟨0x0E, "ldarg.s", .shortVar, .sequential, (.slots 0), (.slots 1)⟩,
    ⟨0x0F, "ldarga.s", .shortVar, .sequential, (.slots 0), (.slots 1)⟩,
    ⟨0x10, "starg.s", .shortVar, .sequential, (.slots 1), (.slots 0)⟩,
    ⟨0x11, "ldloc.s", .shortVar, .sequential, (.slots 0), (.slots 1)⟩,
    ⟨0x12, "ldloca.s", .shortVar, .sequential, (.slots 0), (.slots 1)⟩,
    ⟨0x13, "stloc.s", .shortVar, .sequential, (.slots 1), (.slots 0)⟩,
    ⟨0x14, "ldnull", .none, .sequential, (.slots 0), (.slots 1)⟩,
    ⟨0x15, "ldc.i4.m1", .none, .sequential, (.slots 0), (.slots 1)⟩,
    ⟨0x16, "ldc.i4.0", .none, .sequential, (.slots 0), (.slots 1)⟩,
    ⟨0x17, "ldc.i4.1", .none, .sequential, (.slots 0), (.slots 1)⟩,
    ⟨0x18, "ldc.i4.2", .none, .sequential, (.slots 0), (.slots 1)⟩,
    ⟨0x19, "ldc.i4.3", .none, .sequential, (.slots 0), (.slots 1)⟩,
    ⟨0x1A, "ldc.i4.4", .none, .sequential, (.slots 0), (.slots 1)⟩,
    ⟨0x1B, "ldc.i4.5", .none, .sequential, (.slots 0), (.slots 1)⟩,
    ⟨0x1C, "ldc.i4.6", .none, .sequential, (.slots 0), (.slots 1)⟩,
    ⟨0x1D, "ldc.i4.7", .none, .sequential, (.slots 0), (.slots 1)⟩,
    ⟨0x1E, "ldc.i4.8", .none, .sequential, (.slots 0), (.slots 1)⟩,
    ⟨0x1F, "ldc.i4.s", .shortInt, .sequential, (.slots 0), (.slots 1)⟩,
    ⟨0x20, "ldc.i4", .int32, .sequential, (.slots 0), (.slots 1)⟩,
    ⟨0x21, "ldc.i8", .int64, .sequential, (.slots 0), (.slots 1)⟩,
    ⟨0x22, "ldc.r4", .float32, .sequential, (.slots 0), (.slots 1)⟩,
    ⟨0x23, "ldc.r8", .float64, .sequential, (.slots 0), (.slots 1)⟩,
    ⟨0x25, "dup", .none, .sequential, (.slots 1), (.slots 2)⟩,
    ⟨0x26, "pop", .none, .sequential, (.slots 1), (.slots 0)⟩,
    ⟨0x27, "jmp", .token, .jump, (.slots 0), (.slots 0)⟩,
    ⟨0x28, "call", .token, .call, .signature, .signature⟩,
    ⟨0x29, "calli", .token, .call, .signature, .signature⟩,
    ⟨0x2A, "ret", .none, .ret, .signature, (.slots 0)⟩,
    ⟨0x2B, "br.s", .shortBranch, .unconditionalBranch, (.slots 0), (.slots 0)⟩,
    ⟨0x2C, "brfalse.s", .shortBranch, .conditionalBranch, (.slots 1), (.slots 0)⟩,
    ⟨0x2D, "brtrue.s", .shortBranch, .conditionalBranch, (.slots 1), (.slots 0)⟩,
    ⟨0x2E, "beq.s", .shortBranch, .conditionalBranch, (.slots 2), (.slots 0)⟩,
    ⟨0x2F, "bge.s", .shortBranch, .conditionalBranch, (.slots 2), (.slots 0)⟩,
    ⟨0x30, "bgt.s", .shortBranch, .conditionalBranch, (.slots 2), (.slots 0)⟩,
    ⟨0x31, "ble.s", .shortBranch, .conditionalBranch, (.slots 2), (.slots 0)⟩,
    ⟨0x32, "blt.s", .shortBranch, .conditionalBranch, (.slots 2), (.slots 0)⟩,
    ⟨0x33, "bne.un.s", .shortBranch, .conditionalBranch, (.slots 2), (.slots 0)⟩,
    ⟨0x34, "bge.un.s", .shortBranch, .conditionalBranch, (.slots 2), (.slots 0)⟩,
    ⟨0x35, "bgt.un.s", .shortBranch, .conditionalBranch, (.slots 2), (.slots 0)⟩,
    ⟨0x36, "ble.un.s", .shortBranch, .conditionalBranch, (.slots 2), (.slots 0)⟩,
    ⟨0x37, "blt.un.s", .shortBranch, .conditionalBranch, (.slots 2), (.slots 0)⟩,
    ⟨0x38, "br", .branch, .unconditionalBranch, (.slots 0), (.slots 0)⟩,
    ⟨0x39, "brfalse", .branch, .conditionalBranch, (.slots 1), (.slots 0)⟩,
    ⟨0x3A, "brtrue", .branch, .conditionalBranch, (.slots 1), (.slots 0)⟩,
    ⟨0x3B, "beq", .branch, .conditionalBranch, (.slots 2), (.slots 0)⟩,
    ⟨0x3C, "bge", .branch, .conditionalBranch, (.slots 2), (.slots 0)⟩,
    ⟨0x3D, "bgt", .branch, .conditionalBranch, (.slots 2), (.slots 0)⟩,
    ⟨0x3E, "ble", .branch, .conditionalBranch, (.slots 2), (.slots 0)⟩,
    ⟨0x3F, "blt", .branch, .conditionalBranch, (.slots 2), (.slots 0)⟩,
    ⟨0x40, "bne.un", .branch, .conditionalBranch, (.slots 2), (.slots 0)⟩,
    ⟨0x41, "bge.un", .branch, .conditionalBranch, (.slots 2), (.slots 0)⟩,
    ⟨0x42, "bgt.un", .branch, .conditionalBranch, (.slots 2), (.slots 0)⟩,
    ⟨0x43, "ble.un", .branch, .conditionalBranch, (.slots 2), (.slots 0)⟩,
    ⟨0x44, "blt.un", .branch, .conditionalBranch, (.slots 2), (.slots 0)⟩,
    ⟨0x45, "switch", .switch, .switch, (.slots 1), (.slots 0)⟩,
    ⟨0x46, "ldind.i1", .none, .sequential, (.slots 1), (.slots 1)⟩,
    ⟨0x47, "ldind.u1", .none, .sequential, (.slots 1), (.slots 1)⟩,
    ⟨0x48, "ldind.i2", .none, .sequential, (.slots 1), (.slots 1)⟩,
    ⟨0x49, "ldind.u2", .none, .sequential, (.slots 1), (.slots 1)⟩,
    ⟨0x4A, "ldind.i4", .none, .sequential, (.slots 1), (.slots 1)⟩,
    ⟨0x4B, "ldind.u4", .none, .sequential, (.slots 1), (.slots 1)⟩,
    ⟨0x4C, "ldind.i8", .none, .sequential, (.slots 1), (.slots 1)⟩,
    ⟨0x4D, "ldind.i", .none, .sequential, (.slots 1), (.slots 1)⟩,
    ⟨0x4E, "ldind.r4", .none, .sequential, (.slots 1), (.slots 1)⟩,
    ⟨0x4F, "ldind.r8", .none, .sequential, (.slots 1), (.slots 1)⟩,
    ⟨0x50, "ldind.ref", .none, .sequential, (.slots 1), (.slots 1)⟩,
    ⟨0x51, "stind.ref", .none, .sequential, (.slots 2), (.slots 0)⟩,
    ⟨0x52, "stind.i1", .none, .sequential, (.slots 2), (.slots 0)⟩,
    ⟨0x53, "stind.i2", .none, .sequential, (.slots 2), (.slots 0)⟩,
    ⟨0x54, "stind.i4", .none, .sequential, (.slots 2), (.slots 0)⟩,
    ⟨0x55, "stind.i8", .none, .sequential, (.slots 2), (.slots 0)⟩,
    ⟨0x56, "stind.r4", .none, .sequential, (.slots 2), (.slots 0)⟩,
    ⟨0x57, "stind.r8", .none, .sequential, (.slots 2), (.slots 0)⟩,
    ⟨0x58, "add", .none, .sequential, (.slots 2), (.slots 1)⟩,
    ⟨0x59, "sub", .none, .sequential, (.slots 2), (.slots 1)⟩,
    ⟨0x5A, "mul", .none, .sequential, (.slots 2), (.slots 1)⟩,
    ⟨0x5B, "div", .none, .sequential, (.slots 2), (.slots 1)⟩,
    ⟨0x5C, "div.un", .none, .sequential, (.slots 2), (.slots 1)⟩,
    ⟨0x5D, "rem", .none, .sequential, (.slots 2), (.slots 1)⟩,
    ⟨0x5E, "rem.un", .none, .sequential, (.slots 2), (.slots 1)⟩,
    ⟨0x5F, "and", .none, .sequential, (.slots 2), (.slots 1)⟩,
    ⟨0x60, "or", .none, .sequential, (.slots 2), (.slots 1)⟩,
    ⟨0x61, "xor", .none, .sequential, (.slots 2), (.slots 1)⟩,
    ⟨0x62, "shl", .none, .sequential, (.slots 2), (.slots 1)⟩,
    ⟨0x63, "shr", .none, .sequential, (.slots 2), (.slots 1)⟩,
    ⟨0x64, "shr.un", .none, .sequential, (.slots 2), (.slots 1)⟩,
    ⟨0x65, "neg", .none, .sequential, (.slots 1), (.slots 1)⟩,
    ⟨0x66, "not", .none, .sequential, (.slots 1), (.slots 1)⟩,
    ⟨0x67, "conv.i1", .none, .sequential, (.slots 1), (.slots 1)⟩,
    ⟨0x68, "conv.i2", .none, .sequential, (.slots 1), (.slots 1)⟩,
    ⟨0x69, "conv.i4", .none, .sequential, (.slots 1), (.slots 1)⟩,
    ⟨0x6A, "conv.i8", .none, .sequential, (.slots 1), (.slots 1)⟩,
    ⟨0x6B, "conv.r4", .none, .sequential, (.slots 1), (.slots 1)⟩,
    ⟨0x6C, "conv.r8", .none, .sequential, (.slots 1), (.slots 1)⟩,
    ⟨0x6D, "conv.u4", .none, .sequential, (.slots 1), (.slots 1)⟩,
    ⟨0x6E, "conv.u8", .none, .sequential, (.slots 1), (.slots 1)⟩,
    ⟨0x6F, "callvirt", .token, .call, .signature, .signature⟩,
    ⟨0x70, "cpobj", .token, .sequential, (.slots 2), (.slots 0)⟩,
    ⟨0x71, "ldobj", .token, .sequential, (.slots 1), (.slots 1)⟩,
    ⟨0x72, "ldstr", .token, .sequential, (.slots 0), (.slots 1)⟩,
    ⟨0x73, "newobj", .token, .call, .signature, (.slots 1)⟩,
    ⟨0x74, "castclass", .token, .sequential, (.slots 1), (.slots 1)⟩,
    ⟨0x75, "isinst", .token, .sequential, (.slots 1), (.slots 1)⟩,
    ⟨0x76, "conv.r.un", .none, .sequential, (.slots 1), (.slots 1)⟩,
    ⟨0x79, "unbox", .token, .sequential, (.slots 1), (.slots 1)⟩,
    ⟨0x7A, "throw", .none, .throws, (.slots 1), (.slots 0)⟩,
    ⟨0x7B, "ldfld", .token, .sequential, (.slots 1), (.slots 1)⟩,
    ⟨0x7C, "ldflda", .token, .sequential, (.slots 1), (.slots 1)⟩,
    ⟨0x7D, "stfld", .token, .sequential, (.slots 2), (.slots 0)⟩,
    ⟨0x7E, "ldsfld", .token, .sequential, (.slots 0), (.slots 1)⟩,
    ⟨0x7F, "ldsflda", .token, .sequential, (.slots 0), (.slots 1)⟩,
    ⟨0x80, "stsfld", .token, .sequential, (.slots 1), (.slots 0)⟩,
    ⟨0x81, "stobj", .token, .sequential, (.slots 2), (.slots 0)⟩,
    ⟨0x82, "conv.ovf.i1.un", .none, .sequential, (.slots 1), (.slots 1)⟩,
    ⟨0x83, "conv.ovf.i2.un", .none, .sequential, (.slots 1), (.slots 1)⟩,
    ⟨0x84, "conv.ovf.i4.un", .none, .sequential, (.slots 1), (.slots 1)⟩,
    ⟨0x85, "conv.ovf.i8.un", .none, .sequential, (.slots 1), (.slots 1)⟩,
    ⟨0x86, "conv.ovf.u1.un", .none, .sequential, (.slots 1), (.slots 1)⟩,
    ⟨0x87, "conv.ovf.u2.un", .none, .sequential, (.slots 1), (.slots 1)⟩,
    ⟨0x88, "conv.ovf.u4.un", .none, .sequential, (.slots 1), (.slots 1)⟩,
    ⟨0x89, "conv.ovf.u8.un", .none, .sequential, (.slots 1), (.slots 1)⟩,
    ⟨0x8A, "conv.ovf.i.un", .none, .sequential, (.slots 1), (.slots 1)⟩,
    ⟨0x8B, "conv.ovf.u.un", .none, .sequential, (.slots 1), (.slots 1)⟩,
    ⟨0x8C, "box", .token, .sequential, (.slots 1), (.slots 1)⟩,
    ⟨0x8D, "newarr", .token, .sequential, (.slots 1), (.slots 1)⟩,
    ⟨0x8E, "ldlen", .none, .sequential, (.slots 1), (.slots 1)⟩,
    ⟨0x8F, "ldelema", .token, .sequential, (.slots 2), (.slots 1)⟩,
    ⟨0x90, "ldelem.i1", .none, .sequential, (.slots 2), (.slots 1)⟩,
    ⟨0x91, "ldelem.u1", .none, .sequential, (.slots 2), (.slots 1)⟩,
    ⟨0x92, "ldelem.i2", .none, .sequential, (.slots 2), (.slots 1)⟩,
    ⟨0x93, "ldelem.u2", .none, .sequential, (.slots 2), (.slots 1)⟩,
    ⟨0x94, "ldelem.i4", .none, .sequential, (.slots 2), (.slots 1)⟩,
    ⟨0x95, "ldelem.u4", .none, .sequential, (.slots 2), (.slots 1)⟩,
    ⟨0x96, "ldelem.i8", .none, .sequential, (.slots 2), (.slots 1)⟩,
    ⟨0x97, "ldelem.i", .none, .sequential, (.slots 2), (.slots 1)⟩,
    ⟨0x98, "ldelem.r4", .none, .sequential, (.slots 2), (.slots 1)⟩,
    ⟨0x99, "ldelem.r8", .none, .sequential, (.slots 2), (.slots 1)⟩,
    ⟨0x9A, "ldelem.ref", .none, .sequential, (.slots 2), (.slots 1)⟩,
    ⟨0x9B, "stelem.i", .none, .sequential, (.slots 3), (.slots 0)⟩,
    ⟨0x9C, "stelem.i1", .none, .sequential, (.slots 3), (.slots 0)⟩,
    ⟨0x9D, "stelem.i2", .none, .sequential, (.slots 3), (.slots 0)⟩,
    ⟨0x9E, "stelem.i4", .none, .sequential, (.slots 3), (.slots 0)⟩,
    ⟨0x9F, "stelem.i8", .none, .sequential, (.slots 3), (.slots 0)⟩,
    ⟨0xA0, "stelem.r4", .none, .sequential, (.slots 3), (.slots 0)⟩,
    ⟨0xA1, "stelem.r8", .none, .sequential, (.slots 3), (.slots 0)⟩,
    ⟨0xA2, "stelem.ref", .none, .sequential, (.slots 3), (.slots 0)⟩,
    ⟨0xA3, "ldelem", .token, .sequential, (.slots 2), (.slots 1)⟩,
    ⟨0xA4, "stelem", .token, .sequential, (.slots 3), (.slots 0)⟩,
    ⟨0xA5, "unbox.any", .token, .sequential, (.slots 1), (.slots 1)⟩,
    ⟨0xB3, "conv.ovf.i1", .none, .sequential, (.slots 1), (.slots 1)⟩,
    ⟨0xB4, "conv.ovf.u1", .none, .sequential, (.slots 1), (.slots 1)⟩,
    ⟨0xB5, "conv.ovf.i2", .none, .sequential, (.slots 1), (.slots 1)⟩,
    ⟨0xB6, "conv.ovf.u2", .none, .sequential, (.slots 1), (.slots 1)⟩,
    ⟨0xB7, "conv.ovf.i4", .none, .sequential, (.slots 1), (.slots 1)⟩,
    ⟨0xB8, "conv.ovf.u4", .none, .sequential, (.slots 1), (.slots 1)⟩,
    ⟨0xB9, "conv.ovf.i8", .none, .sequential, (.slots 1), (.slots 1)⟩,
    ⟨0xBA, "conv.ovf.u8", .none, .sequential, (.slots 1), (.slots 1)⟩,
    ⟨0xC2, "refanyval", .token, .sequential, (.slots 1), (.slots 1)⟩,
    ⟨0xC3, "ckfinite", .none, .sequential, (.slots 1), (.slots 1)⟩,
    ⟨0xC6, "mkrefany", .token, .sequential, (.slots 1), (.slots 1)⟩,
    ⟨0xD0, "ldtoken", .token, .sequential, (.slots 0), (.slots 1)⟩,
    ⟨0xD1, "conv.u2", .none, .sequential, (.slots 1), (.slots 1)⟩,
    ⟨0xD2, "conv.u1", .none, .sequential, (.slots 1), (.slots 1)⟩,
    ⟨0xD3, "conv.i", .none, .sequential, (.slots 1), (.slots 1)⟩,
    ⟨0xD4, "conv.ovf.i", .none, .sequential, (.slots 1), (.slots 1)⟩,
    ⟨0xD5, "conv.ovf.u", .none, .sequential, (.slots 1), (.slots 1)⟩,
    ⟨0xD6, "add.ovf", .none, .sequential, (.slots 2), (.slots 1)⟩,
    ⟨0xD7, "add.ovf.un", .none, .sequential, (.slots 2), (.slots 1)⟩,
    ⟨0xD8, "mul.ovf", .none, .sequential, (.slots 2), (.slots 1)⟩,
    ⟨0xD9, "mul.ovf.un", .none, .sequential, (.slots 2), (.slots 1)⟩,
    ⟨0xDA, "sub.ovf", .none, .sequential, (.slots 2), (.slots 1)⟩,
    ⟨0xDB, "sub.ovf.un", .none, .sequential, (.slots 2), (.slots 1)⟩,
    ⟨0xDC, "endfinally", .none, .endFinally, (.slots 0), (.slots 0)⟩,
    ⟨0xDD, "leave", .branch, .leave, (.slots 0), (.slots 0)⟩,
    ⟨0xDE, "leave.s", .shortBranch, .leave, (.slots 0), (.slots 0)⟩,
    ⟨0xDF, "stind.i", .none, .sequential, (.slots 2), (.slots 0)⟩,
    ⟨0xE0, "conv.u", .none, .sequential, (.slots 1), (.slots 1)⟩]

/-- The codes of two bytes. -/
def twoByte : List OpcodeInfo := [
    ⟨0xFE00, "arglist", .none, .sequential, (.slots 0), (.slots 1)⟩,
    ⟨0xFE01, "ceq", .none, .sequential, (.slots 2), (.slots 1)⟩,
    ⟨0xFE02, "cgt", .none, .sequential, (.slots 2), (.slots 1)⟩,
    ⟨0xFE03, "cgt.un", .none, .sequential, (.slots 2), (.slots 1)⟩,
    ⟨0xFE04, "clt", .none, .sequential, (.slots 2), (.slots 1)⟩,
    ⟨0xFE05, "clt.un", .none, .sequential, (.slots 2), (.slots 1)⟩,
    ⟨0xFE06, "ldftn", .token, .sequential, (.slots 0), (.slots 1)⟩,
    ⟨0xFE07, "ldvirtftn", .token, .sequential, (.slots 1), (.slots 1)⟩,
    ⟨0xFE09, "ldarg", .var, .sequential, (.slots 0), (.slots 1)⟩,
    ⟨0xFE0A, "ldarga", .var, .sequential, (.slots 0), (.slots 1)⟩,
    ⟨0xFE0B, "starg", .var, .sequential, (.slots 1), (.slots 0)⟩,
    ⟨0xFE0C, "ldloc", .var, .sequential, (.slots 0), (.slots 1)⟩,
    ⟨0xFE0D, "ldloca", .var, .sequential, (.slots 0), (.slots 1)⟩,
    ⟨0xFE0E, "stloc", .var, .sequential, (.slots 1), (.slots 0)⟩,
    ⟨0xFE0F, "localloc", .none, .sequential, (.slots 1), (.slots 1)⟩,
    ⟨0xFE11, "endfilter", .none, .endFilter, (.slots 1), (.slots 0)⟩,
    ⟨0xFE12, "unaligned.", .shortVar, .modifier, (.slots 0), (.slots 0)⟩,
    ⟨0xFE13, "volatile.", .none, .modifier, (.slots 0), (.slots 0)⟩,
    ⟨0xFE14, "tail.", .none, .modifier, (.slots 0), (.slots 0)⟩,
    ⟨0xFE15, "initobj", .token, .sequential, (.slots 1), (.slots 0)⟩,
    ⟨0xFE16, "constrained.", .token, .modifier, (.slots 0), (.slots 0)⟩,
    ⟨0xFE17, "cpblk", .none, .sequential, (.slots 3), (.slots 0)⟩,
    ⟨0xFE18, "initblk", .none, .sequential, (.slots 3), (.slots 0)⟩,
    ⟨0xFE19, "no.", .shortVar, .modifier, (.slots 0), (.slots 0)⟩,
    ⟨0xFE1A, "rethrow", .none, .throws, (.slots 0), (.slots 0)⟩,
    ⟨0xFE1C, "sizeof", .token, .sequential, (.slots 0), (.slots 1)⟩,
    ⟨0xFE1D, "refanytype", .none, .sequential, (.slots 1), (.slots 1)⟩,
    ⟨0xFE1E, "readonly.", .none, .modifier, (.slots 0), (.slots 0)⟩]

/-- What stands for the description of a code that is not in the table. -/
def reserved (op : Opcode) : OpcodeInfo :=
  ⟨op.code, "???", .none, .sequential, .slots 0, .slots 0⟩

end OpcodeInfo

namespace Opcode

/-! ### Looking codes up -/

/-- The description of a code; `none` for reserved codes. -/
def info? (op : Opcode) : Option OpcodeInfo :=
  (if op.isTwoByte then OpcodeInfo.twoByte else OpcodeInfo.oneByte).find? (·.code == op.code)

/-- The description of a code, where a reserved code counts as one that does
nothing. -/
def info (op : Opcode) : OpcodeInfo := op.info?.getD (OpcodeInfo.reserved op)

/-- The mnemonic, or the code word where there is none. -/
def display (op : Opcode) : String :=
  match op.info? with
  | some info => info.mnemonic
  | none => s!"OpCode(0x{Text.hexPadded 4 op.code.toNat})"

end Opcode

end CilProbe
