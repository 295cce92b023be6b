/-
CilProbe/Code/Layout.lean

Where each instruction of a listing goes, and in which form each branch is
written.  All branches start out short.  A pass places the nodes one after the
other and makes long every short branch that does not reach its target; making
a branch long only moves code further apart, so a branch once long stays long,
and the passes end when all short branches reach.
-/
import CilProbe.Code.Listing

namespace CilProbe

/-! ### Layouts -/

/-- The places of the nodes of a listing and the forms of its branches. -/
structure Layout where
  /-- Position of each node, by number; `none` for nodes outside the code. -/
  offsets : Array (Option Nat)
  /-- Whether each node is a branch in its long form, by number. -/
  long : Array Bool
  /-- Size of the code. -/
  codeSize : Nat
  /-- Passes it took. -/
  passes : Nat
  deriving DecidableEq, Repr

namespace Layout

/-- The position of a node that is part of the code. -/
def offsetOf? (layout : Layout) (id : NodeId) : Option Nat := layout.offsets[id]?.getD none

/-- Whether a node is a branch in its long form. -/
def isLong (layout : Layout) (id : NodeId) : Bool := layout.long[id]?.getD false

/-- The position that a label stands for. -/
def resolve (layout : Layout) (l : Listing) (label : Label) : Except Error Nat :=
  match l.binding label with
  | .node id =>
    match layout.offsetOf? id with
    | some offset => .ok offset
    | none => .error (.malformed (.labelUnplaced label))
  | .atEnd => .ok layout.codeSize
  | .unbound => .error (.malformed (.labelUnbound label))

/-! ### Sizes and reach -/

/-- Bytes of an instruction; a branch takes two in its short form and five in
its long one. -/
def nodeSize (i : Instruction Label) (long : Bool) : Nat :=
  if i.opcode.isBranch then if long then 5 else 2 else i.size

/-- Whether a signed number of `bits` bits can be `d`. -/
def fits (bits : Nat) (d : Int) : Bool :=
  let half : Int := Nat.pow 2 (bits - 1)
  d < half && -half ≤ d

/-- The label that a branch goes to. -/
def branchLabel (i : Instruction Label) : Except Error Label :=
  match i.operand with
  | .target label => .ok label
  | _ => .error (.malformed (.branchWithoutLabel i.opcode.display))

/-! ### One pass -/

/-- Place one more node at `position`; the answer is where the next one goes. -/
def placeNode (l : Listing) (long : Array Bool) (placed : Array (Option Nat) × Nat) (id : NodeId) :
    Except Error (Array (Option Nat) × Nat) :=
  let (offsets, position) := placed
  match l.node id with
  | .error e => .error e
  | .ok n =>
    if Offset.last < position then .error (.malformed .layoutTooLarge)
    else
      .ok (offsets.setIfInBounds id (some position),
        position + nodeSize n.instruction (long[id]?.getD false))

/-- Place the nodes of the code one after the other, with the given branches
long. -/
def place (l : Listing) (long : Array Bool) : Except Error Layout := do
  let (offsets, codeSize) ← l.order.foldlM (placeNode l long) (Array.replicate l.nodes.size none, 0)
  if Offset.last < codeSize then throw (.malformed .layoutTooLarge)
  return { offsets, long, codeSize, passes := 0 }

/-- Whether a node is a short branch that does not reach its target. -/
def outOfReach (l : Listing) (layout : Layout) (id : NodeId) : Except Error Bool := do
  let n ← l.node id
  if !n.instruction.opcode.isBranch || layout.isLong id then return false
  let label ← branchLabel n.instruction
  let start := (layout.offsetOf? id).getD 0
  let target ← layout.resolve l label
  -- a short branch takes two bytes and counts from behind itself
  return !fits 8 ((target : Int) - (start + 2))

/-- The layout with every short branch that does not reach its target made
long, and whether there was any. -/
def promote (l : Listing) (layout : Layout) : Except Error (Array Bool × Bool) :=
  l.order.foldlM (fun (long, grew) id => do
    if ← outOfReach l layout id then return (long.setIfInBounds id true, true)
    else return (long, grew)) (layout.long, false)

/-! ### The passes -/

/-- Repeat passes, at most `budget` more, until no branch has to be made long;
`passes` of them have been made. -/
def settle (l : Listing) (limit : Nat) : Nat → Nat → Array Bool → Except Error Layout
  | 0, _, _ => .error (.nonConvergentLayout limit)
  | budget + 1, passes, long => do
    let layout ← place l long
    let (long, grew) ← promote l layout
    if grew then settle l limit budget (passes + 1) long
    else return { layout with passes := passes + 1 }

/-- The layout of a listing, found in at most `limit` passes. -/
def of (l : Listing) (limit : Nat) : Except Error Layout :=
  settle l limit limit 0 (Array.replicate l.nodes.size false)

end Layout

end CilProbe
