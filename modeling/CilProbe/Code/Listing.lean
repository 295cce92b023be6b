/-
CilProbe/Code/Listing.lean

Method code under edit.  Instructions are nodes that keep their number for
good; the order in which they stand is a separate list, and every branch target
and every end of a clause range is a label bound to a node.  So instructions
can be inserted, replaced or grow without any target going astray: positions
exist again only once the listing is laid out.

Labels for positions of the initial code are made on first use and then
stay the same.

Nodes and labels are numbered in the order in which they are made.  The numbers
are taken to fit 32-bit words, so fewer than 2^32 of each are made.
-/
import CilProbe.Cil.Boundary
import CilProbe.Error

namespace CilProbe

/-! ### Nodes and labels -/

/-- The number of a node in a listing. -/
abbrev NodeId := Nat

/-- The number of a label in a listing. -/
abbrev Label := Nat

/-- What a label stands for. -/
inductive Binding where
  /-- Nothing so far. -/
  | unbound
  /-- The start of a node. -/
  | node (id : NodeId)
  /-- The position after the last instruction. -/
  | atEnd
  deriving DecidableEq, Repr

/-- An instruction in a listing. -/
structure Node where
  /-- The instruction; branches stand in their long form. -/
  instruction : Instruction Label
  /-- Its position in the initial code, unless it was added later. -/
  origin : Option Offset
  deriving DecidableEq, Repr

/-- Code under edit. -/
structure Listing where
  /-- All nodes ever added, by number. -/
  nodes : Array Node
  /-- The nodes that make up the code, in order. -/
  order : List NodeId
  /-- What the labels stand for, by number. -/
  bindings : Array Binding
  /-- The labels made for positions of the initial code. -/
  positionLabels : Std.HashMap Offset Label
  /-- The nodes that stood in the initial code, by position. -/
  positionNodes : Std.HashMap Offset NodeId
  /-- Size of the initial code. -/
  initialSize : Offset

/-- A change to a listing that answers with a value, or fails and changes
nothing. -/
abbrev Edit := StateT Listing (Except Error)

namespace Listing

/-- The listing of no code. -/
def empty : Listing := ⟨#[], [], #[], ∅, ∅, 0⟩

/-! ### Labels -/

/-- What a label stands for; a label that was never made stands for nothing. -/
def binding (l : Listing) (label : Label) : Binding := l.bindings[label]?.getD .unbound

/-- The listing with one more label. -/
def addLabel (l : Listing) (binding : Binding) : Label × Listing :=
  (l.bindings.size, { l with bindings := l.bindings.push binding })

/-- A new label that stands for nothing yet. -/
def newLabel : Edit Label := fun l => .ok (l.addLabel .unbound)

/-- What a position of the initial code is, if it is the start of an
instruction or the end of the code. -/
def bindingAt? (l : Listing) (offset : Offset) : Option Binding :=
  match l.positionNodes[offset]? with
  | some id => some (.node id)
  | none => if offset = l.initialSize then some .atEnd else none

/-- The label for a position of the initial code, made on first use. -/
def labelAt (offset : Offset) : Edit Label := fun l =>
  match l.positionLabels[offset]? with
  | some label => .ok (label, l)
  | none =>
    match l.bindingAt? offset with
    | none => .error (.malformed (.notBoundary offset))
    | some binding =>
      let (label, l) := l.addLabel binding
      .ok (label, { l with positionLabels := l.positionLabels.insert offset label })

/-- Let a label stand for a node. -/
def bind (l : Listing) (label : Label) (id : NodeId) : Listing :=
  { l with bindings := l.bindings.setIfInBounds label (.node id) }

/-- Let every label that stands for the end of the code stand for a node, so
that ranges that ended with the code go on ending there when code is added
behind it. -/
def rebindEnd (l : Listing) (id : NodeId) : Listing :=
  { l with bindings := l.bindings.map fun b => if b = .atEnd then .node id else b }

/-! ### Nodes -/

/-- The node of a number. -/
def node (l : Listing) (id : NodeId) : Except Error Node :=
  match l.nodes[id]? with
  | some n => .ok n
  | none => .error (.malformed (.unknownNode id))

/-- Whether a node is a branch. -/
def isBranch (l : Listing) (id : NodeId) : Bool :=
  (l.nodes[id]?).any fun n => n.instruction.opcode.isBranch

/-- The node that stood at a position of the initial code. -/
def nodeAt? (l : Listing) (offset : Offset) : Option NodeId := l.positionNodes[offset]?

/-- The instruction with its branch in the long form. -/
def long (i : Instruction Label) : Instruction Label := { i with opcode := i.opcode.longForm }

/-- The listing with one more node, which is not part of the code yet. -/
def addNode (l : Listing) (i : Instruction Label) : NodeId × Listing :=
  (l.nodes.size, { l with nodes := l.nodes.push ⟨long i, none⟩ })

/-- Replace the instruction of a node, which keeps its number and origin. -/
def setInstruction (l : Listing) (id : NodeId) (i : Instruction Label) : Except Error Listing :=
  match l.nodes[id]? with
  | some n => .ok { l with nodes := l.nodes.setIfInBounds id { n with instruction := i } }
  | none => .error (.malformed (.unknownNode id))

/-- Let the code be made up of other nodes. -/
def setOrder (l : Listing) (order : List NodeId) : Listing := { l with order }

/-! ### Initial code -/

/-- The label for the target of a branch at `source`. -/
def targetLabel (source target : Offset) : Edit Label := do
  match (← get).positionNodes[target]? with
  | some _ => labelAt target
  | none => throw (.malformed (.targetNotInstruction source target))

/-- Add an instruction of the initial code as the next node. -/
def addInitial (i : Instruction Offset) : Edit Unit := do
  let operand ← i.operand.mapTargetsM (targetLabel i.offset)
  modify fun l =>
    { l with nodes := l.nodes.push ⟨⟨i.offset, i.opcode.longForm, operand⟩, some i.offset⟩ }

/-- The listing of decoded code of the given size, which every branch must keep
to. -/
def ofInstructions (code : List (Instruction Offset)) (size : Offset) : Except Error Listing := do
  let start : Listing :=
    { empty with
      order := List.range code.length, positionNodes := indexByOffset code, initialSize := size }
  let (_, l) ← (code.forM addInitial).run start
  return l

end Listing

end CilProbe
