/-
CilProbe/Probe/Draft.lean

A method's code on its way to being instrumented.  A draft holds the code as a
listing, the locals, and the clauses with labels for the ends of their ranges;
the entry probe and the exit probe are edits of it, and `finish` writes the new
body.

The exit probe puts all code into a protected range.  Every return becomes a
store of the value and a leave to the epilogue, a finally handler calls the
exit helper, and the epilogue loads the value and returns.  Where exceptions
are observed, an inner clause catches them, stores them, and throws them on.
-/
import CilProbe.Body.MethodBody
import CilProbe.Code.Assemble
import CilProbe.Probe.Request
import CilProbe.Signature.Locals

namespace CilProbe

/-! ### Drafts -/

/-- A clause whose ranges start and end at labels. -/
structure LabelledClause where
  /-- Kind of clause. -/
  flags : ClauseFlags
  /-- The class caught, or the position of the filter. -/
  classOrFilter : UInt32
  /-- Where the protected range starts. -/
  tryStart : Label
  /-- Where it ends. -/
  tryEnd : Label
  /-- Where the handler starts. -/
  handlerStart : Label
  /-- Where it ends. -/
  handlerEnd : Label
  deriving DecidableEq, Repr

/-- The locals that the exit probe needs. -/
structure ExitSlots where
  /-- The value returned, if there is one. -/
  value : Option UInt16
  /-- The exception that passed. -/
  exception : UInt16
  deriving DecidableEq, Repr

/-- A method on its way to being instrumented. -/
structure Draft where
  /-- Its code. -/
  listing : Listing
  /-- Its locals. -/
  locals : Locals
  /-- The locals of the exit probe, if that is injected. -/
  exitSlots : Option ExitSlots
  /-- The local that keeps what the entry helper answered. -/
  answerSlot : UInt16
  /-- Its clauses in table order. -/
  clauses : List LabelledClause
  /-- The nodes of the entry probe. -/
  entry : List NodeId
  /-- Stack depth to declare. -/
  maxStack : UInt16

namespace Draft

/-! ### Opening a draft -/

/-- A clause with labels for the ends of its ranges. -/
def labelled (c : Clause) : Edit LabelledClause := do
  let tryStart ← Listing.labelAt c.tryOffset
  let tryEnd ← Listing.labelAt c.tryEnd
  let handlerStart ← Listing.labelAt c.handlerOffset
  let handlerEnd ← Listing.labelAt c.handlerEnd
  return { flags := c.flags, classOrFilter := c.classOrFilter, tryStart, tryEnd, handlerStart,
           handlerEnd }

/-- Add a local, or fail with nothing added. -/
def addLocal (t : TypeSig) : StateT Locals (Except Error) UInt16 := fun locals =>
  match locals.push t with
  | (.ok slot, locals) => .ok (slot, locals)
  | (.error e, _) => .error e

/-- Add the locals of the exit probe for a method that returns `ret`. -/
def addExitSlots (ret : TypeSig) : StateT Locals (Except Error) ExitSlots := do
  let value ← if ret.isVoid then pure none else some <$> addLocal ret
  let exception ← addLocal (.primitive .object)
  return { value, exception }

/-- Values that the injected code has on the stack at once. -/
def neededStack : Option ExitSlots → UInt16
  | none => 1
  | some slots => if slots.value.isSome then 3 else 2

/-- A draft of a request whose body has been read. -/
def ofRequest (request : ProbeRequest) (body : MethodBody) (code : List (Instruction Offset))
    (codeSize : Nat) : Except Error Draft := do
  let size ←
    match Offset.ofNat? codeSize with
    | some size => pure size
    | none => throw (.malformed (.codeTooLong codeSize))
  let listing ← Listing.ofInstructions code size
  -- the labels of ranges are made after those of branches
  let (clauses, listing) ← (body.clauses.mapM labelled).run listing
  let locals ← Locals.parse request.locals
  let (exitSlots, locals) ←
    if request.policy.exit then do
      let (slots, locals) ← (addExitSlots request.signature.ret.unmodified).run locals
      pure (some slots, locals)
    else pure (none, locals)
  let (answerSlot, locals) ← (addLocal (.primitive .i8)).run locals
  return { listing, locals, exitSlots, answerSlot, clauses, entry := [],
           maxStack := max body.maxStack (neededStack exitSlots) }

/-! ### Edits -/

/-- Add an instruction as a node that is not part of the code yet. -/
def add (i : Instruction Label) : Edit NodeId := modifyGet fun l => l.addNode i

/-- Add instructions as nodes that are not part of the code yet. -/
def addAll (is : List (Instruction Label)) : Edit (List NodeId) := is.mapM add

/-- A new label that stands for a node. -/
def labelFor (id : NodeId) : Edit Label := do
  let label ← Listing.newLabel
  modify fun l => l.bind label id
  return label

/-- Replace the instruction of a node. -/
def replace (id : NodeId) (i : Instruction Label) : Edit Unit := do
  set (← (← get).setInstruction id i)

/-- The instruction of a node, where a return is replaced by a store of the
value, if there is one, and a leave to `epilogue`.  The node keeps its number,
so whatever branched to the return now branches to its replacement. -/
def redirectReturn (value : Option UInt16) (epilogue : Label) (id : NodeId) :
    Edit (List NodeId) := do
  let i := (← (← get).node id).instruction
  if i.opcode = Opcode.ret then
    match value with
    | some slot =>
      replace id { (Instruction.storeLocal slot : Instruction Label) with offset := i.offset }
      return [id, ← add (.new Opcode.leave (.target epilogue))]
    | none =>
      replace id ⟨i.offset, Opcode.leave, .target epilogue⟩
      return [id]
  else return [id]

/-! ### The entry probe -/

/-- The instructions of the entry probe. -/
def entryCode (method enter : Token) (answerSlot : UInt16) : List (Instruction Label) :=
  [.new Opcode.ldc (.int32 method.value.toInt32), .new Opcode.call (.token enter),
    .storeLocal answerSlot]

/-- Inject the entry probe. -/
def insertEntry (d : Draft) (method enter : Token) : Except Error Draft := do
  let (entry, listing) ← (addAll (entryCode method enter d.answerSlot)).run d.listing
  return { d with listing, entry }

/-! ### The exit probe -/

/-- The handler that stores an exception and throws it on. -/
def catchCode (slots : ExitSlots) : List (Instruction Label) :=
  [.storeLocal slots.exception, .new Opcode.rethrow .none]

/-- The handler that calls the exit helper. -/
def finallyCode (slots : ExitSlots) (answerSlot : UInt16) (exit : Token) :
    List (Instruction Label) :=
  (slots.value.map Instruction.loadLocal).toList ++
    [.loadLocal slots.exception, .loadLocal answerSlot, .new Opcode.call (.token exit),
      .new Opcode.endfinally .none]

/-- The code that returns to the caller. -/
def epilogueCode (slots : ExitSlots) : List (Instruction Label) :=
  (slots.value.map Instruction.loadLocal).toList ++ [.new Opcode.ret .none]

/-- The first of some nodes, all of which belong to code that is not empty. -/
def firstOf (ids : List NodeId) : Edit NodeId :=
  match ids with
  | id :: _ => pure id
  | [] => throw (.unsupportedShape .emptyBody)

/-- Wrap the code of a listing; the answer is its order and the clauses of the
wrapping, the inner one first. -/
def wrap (slots : ExitSlots) (answerSlot : UInt16) (exit : Token) (exceptionType : Option Token) :
    Edit (List NodeId × List LabelledClause) := do
  let code := (← get).order
  let first ← firstOf code
  let epilogueLabel ← Listing.newLabel
  -- the epilogue does not exist yet; returns leave to its label, bound below
  let body := (← code.mapM (redirectReturn slots.value epilogueLabel)).flatten
  let tryStart ← labelFor first
  let catchNodes ← if exceptionType.isSome then addAll (catchCode slots) else pure []
  let finallyNodes ← addAll (finallyCode slots answerSlot exit)
  let epilogueNodes ← addAll (epilogueCode slots)
  let epilogue ← firstOf epilogueNodes
  modify fun l => l.bind epilogueLabel epilogue
  -- ranges that ended with the code now end where the first handler starts
  let handlers ← firstOf (catchNodes ++ finallyNodes)
  modify fun l => l.rebindEnd handlers
  let finallyLabel ← labelFor (← firstOf finallyNodes)
  let finallyEnd ← labelFor epilogue
  let catchClause ←
    match exceptionType with
    | some type => do
      let catchLabel ← labelFor handlers
      pure [{ flags := .catch_, classOrFilter := type.value, tryStart, tryEnd := catchLabel,
              handlerStart := catchLabel, handlerEnd := finallyLabel : LabelledClause }]
    | none => pure []
  let finallyClause : LabelledClause :=
    { flags := .finallyOnly, classOrFilter := 0, tryStart, tryEnd := finallyLabel,
      handlerStart := finallyLabel, handlerEnd := finallyEnd }
  return (body ++ catchNodes ++ finallyNodes ++ epilogueNodes, catchClause ++ [finallyClause])

/-- Inject the exit probe. -/
def wrapExit (d : Draft) (slots : ExitSlots) (exit : Token) (exceptionType : Option Token) :
    Except Error Draft := do
  let ((order, clauses), listing) ← (wrap slots d.answerSlot exit exceptionType).run d.listing
  return { d with listing := listing.setOrder order, clauses := d.clauses ++ clauses }

/-! ### Closing a draft -/

/-- The clause at the positions of a layout. -/
def placed (l : Listing) (layout : Layout) (c : LabelledClause) : Except Error Clause := do
  let tryStart ← layout.resolve l c.tryStart
  let tryEnd ← layout.resolve l c.tryEnd
  let handlerStart ← layout.resolve l c.handlerStart
  let handlerEnd ← layout.resolve l c.handlerEnd
  return { flags := c.flags
           tryOffset := .ofNat tryStart
           tryLength := .ofNat (tryEnd - tryStart)
           handlerOffset := .ofNat handlerStart
           handlerLength := .ofNat (handlerEnd - handlerStart)
           classOrFilter := c.classOrFilter }

/-- Old and new position of a node that stood in the initial code. -/
def moved (l : Listing) (layout : Layout) (id : NodeId) : Except Error (Option (Offset × Offset)) :=
  return match (← l.node id).origin, layout.offsetOf? id with
    | some origin, some offset => some (origin, .ofNat offset)
    | _, _ => none

/-- Lay the code out in at most `passLimit` passes and write the body. -/
def finish (d : Draft) (passLimit : Nat) (localsToken : Token) : Except Error ProbedMethod := do
  let listing := d.listing.setOrder (d.entry ++ d.listing.order)
  -- positions exist from here on
  let layout ← Layout.of listing passLimit
  let code ← assemble listing layout
  let offsetMap := (← listing.order.mapM (moved listing layout)).filterMap id
  let clauses ← d.clauses.mapM (placed listing layout)
  let body ← BodySpec.write
    { code, maxStack := d.maxStack, localSignature := some localsToken, initLocals := true,
      fat := true, clauses }
  return { body, offsetMap, localsToken, maxStack := d.maxStack, layoutPasses := layout.passes }

end Draft

end CilProbe
