/-
CilProbe/Code/Assemble.lean

Writing the code of a listing that has been laid out.  Displacements count from
the end of the instruction; a branch is written in the form its layout chose.
-/
import CilProbe.Bytes.LittleEndian
import CilProbe.Code.Layout

namespace CilProbe

namespace Assemble

/-! ### Displacements -/

/-- The four bytes of a displacement; `tooFar` says what is wrong with one that
does not fit. -/
def displacement (tooFar : Int → Error) (d : Int) : Except Error (List UInt8) :=
  if Layout.fits 32 d then .ok (LittleEndian.ofInt32 (Int32.ofInt d)) else .error (tooFar d)

/-- The displacement from `stop` to what a label stands for. -/
def distance (l : Listing) (layout : Layout) (stop : Nat) (label : Label) : Except Error Int := do
  return (← layout.resolve l label) - (stop : Int)

/-! ### Instructions -/

/-- The bytes of an operand of an instruction that ends at `stop`; a label
outside a branch is written like one in a long branch. -/
def operand (l : Listing) (layout : Layout) (stop : Nat) : Operand Label → Except Error (List UInt8)
  | .none => .ok []
  | .int8 v => .ok [v.toUInt8]
  | .uint8 v => .ok [v]
  | .uint16 v => .ok (LittleEndian.ofUInt16 v)
  | .int32 v => .ok (LittleEndian.ofInt32 v)
  | .int64 v => .ok (LittleEndian.ofInt64 v)
  | .float32 bits => .ok (LittleEndian.ofUInt32 bits)
  | .float64 bits => .ok (LittleEndian.ofUInt64 bits)
  | .token t => .ok (LittleEndian.ofUInt32 t.value)
  | .target label => do displacement (fun _ => .outOfBounds) (← distance l layout stop label)
  | .switch labels => do
    let table ← labels.mapM fun label => do
      displacement (fun d => .malformed (.switchTooFar d)) (← distance l layout stop label)
    return LittleEndian.encode 4 labels.length ++ table.flatten

/-- The bytes of a branch that ends at `stop`. -/
def branch (l : Listing) (layout : Layout) (stop : Nat) (long : Bool) (i : Instruction Label) :
    Except Error (List UInt8) := do
  let d ← distance l layout stop (← Layout.branchLabel i)
  if long then
    return i.opcode.longForm.bytes ++ (← displacement (fun d => .malformed (.branchTooFar d)) d)
  else if Layout.fits 8 d then return i.opcode.shortForm.bytes ++ [(Int8.ofInt d).toUInt8]
  else throw (.malformed (.shortBranchTooFar d))

/-- The bytes of a node; one that the layout does not place counts as standing
at the last position. -/
def node (l : Listing) (layout : Layout) (id : NodeId) : Except Error (List UInt8) := do
  let i := (← l.node id).instruction
  let long := layout.isLong id
  let stop := (layout.offsetOf? id).getD Offset.last + Layout.nodeSize i long
  if i.opcode.isBranch then branch l layout stop long i
  else return i.opcode.bytes ++ (← operand l layout stop i.operand)

end Assemble

/-- The bytes of a listing's code. -/
def assemble (l : Listing) (layout : Layout) : Except Error (List UInt8) := do
  return (← l.order.mapM (Assemble.node l layout)).flatten

end CilProbe
