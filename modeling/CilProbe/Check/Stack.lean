/-
CilProbe/Check/Stack.lean

The depth of the evaluation stack at every instruction that control can reach.
Control enters at the first instruction and at every handler; from there depths
are carried along until nothing new is reached.  Wherever two ways meet they
must agree, nothing may be taken from an empty stack, protected ranges are
entered with an empty stack, and a return leaves nothing behind.

Depths are 16-bit words, as in the header that declares the largest one.
-/
import CilProbe.Body.Clause
import CilProbe.Check.Structure
import CilProbe.Metadata.View

namespace CilProbe

namespace Check

/-! ### Effects of single instructions -/

/-- What an instruction takes from the stack and puts on it. -/
structure StackEffect where
  /-- Values taken. -/
  pops : UInt16
  /-- Values put. -/
  pushes : UInt16
  deriving DecidableEq, Repr

/-- The effect of calling what has the given signature; constructing an
instance takes no instance but leaves one, and calling through a pointer takes
the pointer as well. -/
def callEffect (op : Opcode) (s : MethodSig) : StackEffect :=
  let result : UInt16 := if s.ret.isVoid then 0 else 1
  if op = Opcode.newobj then ⟨UInt16.ofNat s.arity, 1⟩
  else if op = Opcode.calli then ⟨UInt16.ofNat s.stackPops + 1, result⟩
  else ⟨UInt16.ofNat s.stackPops, result⟩

/-- The signature of what an instruction calls. -/
def calledSignature (callSites : CallSites) (i : Instruction Offset) : Except Error MethodSig :=
  match i.token? with
  | none => reject i.offset .callWithoutToken
  | some token =>
    match callSites token with
    | .ok s => .ok s
    | .error e => reject i.offset (.unresolvedCall token e.message)

/-- The effect of an instruction in a method that returns a value or not. -/
def stackEffect (callSites : CallSites) (returnsValue : Bool) (i : Instruction Offset) :
    Except Error StackEffect :=
  match i.opcode.info.pops, i.opcode.info.pushes with
  | .slots pops, .slots pushes => .ok ⟨UInt16.ofNat pops, UInt16.ofNat pushes⟩
  | _, _ =>
    if i.opcode = Opcode.ret then .ok ⟨if returnsValue then 1 else 0, 0⟩
    else return callEffect i.opcode (← calledSignature callSites i)

/-! ### Ways through the code -/

/-- Where control goes after an instruction: whether on to the next one, and to
which targets. -/
def successors (i : Instruction Offset) : List Offset :=
  match i.opcode.info.flow with
  | .sequential | .call | .modifier => [i.nextOffset]
  | .conditionalBranch | .switch => i.nextOffset :: i.operand.targets
  | .unconditionalBranch | .leave => i.operand.targets
  | .ret | .throws | .endFinally | .endFilter | .jump => []

/-- The depth that the successors of an instruction start with, where `depth`
is left on the stack; leaving a protected range empties it. -/
def depthAfter (i : Instruction Offset) (depth : UInt16) : UInt16 :=
  if i.opcode.info.flow = .leave then 0 else depth

/-! ### Walking -/

/-- Code with what has been found out about it. -/
structure Walk where
  /-- Depth before each instruction reached so far, by number. -/
  depths : Array (Option UInt16)
  /-- Instructions reached but not yet passed, latest first. -/
  pending : List Nat
  /-- The largest depth seen so far. -/
  deepest : UInt16
  deriving DecidableEq, Repr

/-- Code as it is walked through. -/
structure Ground where
  /-- The instructions. -/
  code : Array (Instruction Offset)
  /-- Their numbers by position. -/
  index : Std.HashMap Offset Nat
  /-- The clause table. -/
  clauses : List Clause
  /-- Whether the method returns a value. -/
  returnsValue : Bool
  /-- Signatures of what is called. -/
  callSites : CallSites

namespace Walk

/-- The walk before its first step. -/
def start (size : Nat) : Walk := ⟨Array.replicate size none, [], 0⟩

/-- Reach the instruction at `offset` with `depth` values on the stack, coming
from the instruction at `source`. -/
def enter (g : Ground) (source : Offset) (w : Walk) (offset : Offset) (depth : UInt16) :
    Except Error Walk :=
  match g.index[offset]? with
  | none => reject source (.noInstruction offset)
  | some n =>
    match w.depths[n]?.getD none with
    | some existing =>
      if existing = depth then .ok w
      else reject source (.inconsistentDepth offset existing depth)
    | none =>
      .ok { w with depths := w.depths.setIfInBounds n (some depth), pending := n :: w.pending }

/-- Reach the handler of a clause, and its filter. -/
def enterClause (g : Ground) (w : Walk) (c : Clause) : Except Error Walk := do
  let depth : UInt16 := if c.isFinallyLike then 0 else 1
  let w ← enter g c.handlerOffset w c.handlerOffset depth
  match c.filterOffset? with
  | some filter => enter g filter w filter 1
  | none => return w

/-- Reach everything that control enters from outside. -/
def enterAll (g : Ground) : Except Error Walk := do
  let w := start g.code.size
  let w :=
    if g.code.isEmpty then w
    else { w with depths := w.depths.setIfInBounds 0 (some 0), pending := [0] }
  g.clauses.foldlM (enterClause g) w

/-- Pass an instruction that is reached with `depth` values on the stack. -/
def pass (g : Ground) (w : Walk) (i : Instruction Offset) (depth : UInt16) :
    Except Error Walk := do
  require (depth == 0 || !g.clauses.any (·.tryOffset == i.offset)) i.offset .stackNotEmpty
  let effect ← stackEffect g.callSites g.returnsValue i
  require (effect.pops ≤ depth) i.offset (.underflow i.opcode.display effect.pops depth)
  -- 16-bit arithmetic: a sum beyond the range wraps
  let after := depth - effect.pops + effect.pushes
  require (i.opcode.info.flow != .ret || after == 0) i.offset (.returnDepth after)
  let w := { w with deepest := max (max w.deepest after) depth }
  (successors i).foldlM (fun w target => enter g i.offset w target (depthAfter i after)) w

/-- Pass instructions, at most `count` of them, until none is pending. -/
def run (g : Ground) : Nat → Walk → Except Error Walk
  | 0, w => .ok w
  | count + 1, w =>
    match w.pending with
    | [] => .ok w
    | n :: pending =>
      match g.code[n]? with
      | none => .ok w
      | some i => do
        let w ← pass g { w with pending } i ((w.depths[n]?.getD none).getD 0)
        run g count w

end Walk

/-! ### The whole check -/

/-- The depths at all instructions that control can reach. -/
structure StackReport where
  /-- Depth before each of them, by position, in code order. -/
  depths : List (Offset × UInt16)
  /-- The largest depth, before or after an instruction. -/
  maxDepth : UInt16
  deriving DecidableEq, Repr

/-- Find the depth at every instruction that control can reach.  Every
instruction is passed at most once, so there are no more steps than
instructions. -/
def simulateStack (code : List (Instruction Offset)) (clauses : List Clause) (returnsValue : Bool)
    (callSites : CallSites) : Except Error StackReport := do
  let g : Ground := ⟨code.toArray, indexByOffset code, clauses, returnsValue, callSites⟩
  let w ← Walk.enterAll g
  let w ← Walk.run g code.length w
  let depths := (code.zip w.depths.toList).filterMap fun (i, depth) => depth.map (i.offset, ·)
  return ⟨depths, w.deepest⟩

end Check

end CilProbe
