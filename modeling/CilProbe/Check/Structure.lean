/-
CilProbe/Check/Structure.lean

The shape that code and its clause table must have: control stays inside the
code, every branch and every end of a clause range is a boundary between
instructions, ranges are not empty, any two ranges are apart or one inside the
other, and an inner clause stands before the clauses around it.
-/
import CilProbe.Body.Clause
import CilProbe.Cil.Boundary
import CilProbe.Error

namespace CilProbe

namespace Check

/-! ### Ranges -/

/-- A range of code that belongs to a clause. -/
structure Block where
  /-- The number of the clause. -/
  clause : Nat
  /-- Where the range starts. -/
  start : Offset
  /-- The position after it. -/
  stop : Offset
  deriving DecidableEq, Repr

namespace Block

/-- Whether two ranges share a position. -/
def overlaps (a b : Block) : Bool := a.start < b.stop && b.start < a.stop

/-- Whether the first range reaches over the second. -/
def encloses (outer inner : Block) : Bool := outer.start ≤ inner.start && inner.stop ≤ outer.stop

/-- Whether the first range reaches over the second and is not the same. -/
def strictlyEncloses (outer inner : Block) : Bool :=
  outer.encloses inner && !(outer.start == inner.start && outer.stop == inner.stop)

end Block

/-- The protected range of the clause with the given number. -/
def protectedBlock (clause : Nat) (c : Clause) : Block := ⟨clause, c.tryOffset, c.tryEnd⟩

/-- The range of its handler, the filter included. -/
def handlerBlock (clause : Nat) (c : Clause) : Block := ⟨clause, c.handlerStart, c.handlerEnd⟩

/-! ### Rejections -/

/-- Reject a body for what is found at `offset`. -/
def reject {α : Type} (offset : Offset) (finding : Finding) : Except Error α :=
  .error (.rejected offset finding)

/-- Reject a body unless `good` holds. -/
def require (good : Bool) (offset : Offset) (finding : Finding) : Except Error Unit :=
  if good then .ok () else reject offset finding

/-! ### Control -/

/-- There is code, and its last instruction does not let control run on. -/
def checkEnd (code : List (Instruction Offset)) : Except Error Unit :=
  match code.getLast? with
  | none => reject 0 .emptyCode
  | some last => require (!last.opcode.info.flow.fallsThrough) last.offset .fallsOffEnd

/-- Every branch of an instruction goes to an instruction. -/
def checkTargets (boundaries : Boundaries) (size : Offset) (i : Instruction Offset) :
    Except Error Unit :=
  i.operand.targets.forM fun target =>
    require (target < size && boundaries.contains target) i.offset (.strayTarget target)

/-! ### Clauses -/

/-- The ends of the ranges of a clause. -/
def edges (c : Clause) : List Offset :=
  [c.tryOffset, c.tryEnd, c.handlerStart, c.handlerOffset, c.handlerEnd]

/-- The ranges of a clause lie on boundaries, hold something and are apart. -/
def checkClause (boundaries : Boundaries) (clause : Nat) (c : Clause) : Except Error Unit := do
  (edges c).forM fun edge => require (boundaries.contains edge) edge (.clauseEdge clause)
  require (c.tryLength != 0 && c.handlerLength != 0) c.tryOffset (.clauseEmpty clause)
  require (!(protectedBlock clause c).overlaps (handlerBlock clause c)) c.handlerOffset
    (.clauseOverlapsItself clause)

/-- The ranges of all clauses, in table order. -/
def blocks (clauses : List Clause) : List Block :=
  clauses.zipIdx.flatMap fun (c, clause) => [protectedBlock clause c, handlerBlock clause c]

/-- Two ranges, the first of which comes first in the table, are apart, or one
lies in the other and the outer one does not come first. -/
def checkPair (first second : Block) : Except Error Unit := do
  require (!first.overlaps second || first.encloses second || second.encloses first) second.start
    (.clauseNesting first.clause second.clause)
  require (!(first.clause < second.clause && first.strictlyEncloses second)) second.start
    (.clauseOrder first.clause second.clause)

/-- Any two ranges of a list go together. -/
def checkPairs : List Block → Except Error Unit
  | [] => .ok ()
  | first :: rest => do
    rest.forM (checkPair first)
    checkPairs rest

/-! ### The whole check -/

/-- Code of the given size and its clause table have the shape they must
have. -/
def checkStructure (code : List (Instruction Offset)) (size : Offset) (clauses : List Clause) :
    Except Error Unit := do
  let boundaries := Boundaries.of code size
  checkEnd code
  code.forM (checkTargets boundaries size)
  clauses.zipIdx.forM fun (c, clause) => checkClause boundaries clause c
  checkPairs (blocks clauses)

end Check

end CilProbe
