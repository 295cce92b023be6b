/-
CilProbe/Proofs/Machine/Basic.lean

A machine that runs methods.  What ordinary instructions do to the stack, the locals
and everything else is left open, and so is which way a conditional branch goes;
where control goes is not.  Leaving a protected range empties the stack and runs the
finally handlers on the way, inner ones first; an exception goes to the clauses that
cover the place where it is raised, in table order.  While a handler runs, the machine
remembers what it is for: the exception that it has caught, or what is to be done when
it ends.
-/
import CilProbe.Proofs.Probe.Acts

namespace CilProbe

/-! ### What an instruction says, apart from where it goes -/

/-- What an instruction says, apart from its targets. -/
def Instruction.word (i : Instruction Offset) : Act Unit := i.act.map fun _ => ()

/-! ### Frames -/

/-- What an instruction works on. -/
structure Frame (Value Heap : Type) where
  /-- The evaluation stack, its top first. -/
  stack : List Value
  /-- The local variables. -/
  locals : UInt16 → Value
  /-- Everything else: arguments, fields, objects. -/
  heap : Heap

/-- What comes of an instruction. -/
inductive Outcome (Value Heap Event : Type) where
  /-- It goes to the target with the given number, if there is one, and else on to the
  next instruction. -/
  | goes (choice : Option Nat) (frame : Frame Value Heap) (events : List Event)
  /-- It throws an exception. -/
  | throws (exception : Value) (frame : Frame Value Heap) (events : List Event)
  /-- It can do neither. -/
  | stuck

/-! ### Machines -/

/-- What a machine makes of the instructions that are not its own matter. -/
structure Machine where
  /-- What the stack and the locals hold. -/
  Value : Type
  /-- What there is apart from them. -/
  Heap : Type
  /-- What can be observed of a run. -/
  Event : Type
  /-- What two heaps have in common if no method can tell them apart; what they differ in
  is for helpers to keep their records in. -/
  same : Heap → Heap → Prop
  /-- A number on the stack. -/
  int32 : Int32 → Value
  /-- What an ordinary instruction does. -/
  effect : Act Unit → Frame Value Heap → Outcome Value Heap Event
  /-- The call of a helper, with its arguments in order. -/
  called : Token → List Value → Event
  /-- The exception that throwing a value raises; it is the value, if that is one. -/
  raised : Value → Heap → Value × Heap
  /-- Whether an exception belongs to a class. -/
  catches : Token → Value → Heap → Bool
  same_trans : ∀ {a b c}, same a b → same b c → same a c
  raised_same : ∀ {a b} (v : Value), same a b →
    (raised v a).1 = (raised v b).1 ∧ same (raised v a).2 (raised v b).2
  catches_same : ∀ {a b} (type : Token) (v : Value), same a b →
    catches type v a = catches type v b

/-- A method as a machine runs it. -/
structure Method where
  /-- Its instructions. -/
  code : List (Instruction Offset)
  /-- Its clause table. -/
  clauses : List Clause
  /-- Whether it returns a value. -/
  returnsValue : Bool

/-- A body is that of a method. -/
def Method.Read (m : Method) (data : List UInt8) : Prop :=
  ∃ body bytes, MethodBody.read data = .ok body ∧ body.code data = .ok bytes ∧
    decode bytes = .ok m.code ∧ m.clauses = body.clauses

/-- The instruction at a position. -/
def Method.fetch (m : Method) (pc : Offset) : Option (Instruction Offset) :=
  m.code.find? (·.offset == pc)

/-! ### States -/

/-- What is done when a finally handler ends, with the clauses that are still to be
looked at. -/
inductive Resume (Value : Type) where
  /-- Go on leaving for a target. -/
  | leave (rest : List Clause) (target : Offset)
  /-- Go on looking for a handler of an exception. -/
  | throw (rest : List Clause) (exception : Value)

/-- A handler that is running. -/
inductive Active (Value : Type) where
  /-- It has caught an exception. -/
  | catching (clause : Clause) (exception : Value)
  /-- It runs on the way to something else. -/
  | finishing (clause : Clause) (resume : Resume Value)

namespace Active

variable {Value : Type}

/-- The clause whose handler it is. -/
def clause : Active Value → Clause
  | catching c _ => c
  | finishing c _ => c

/-- The exception that it has caught. -/
def caught? : Active Value → Option Value
  | catching _ exception => some exception
  | finishing .. => none

/-- What is to be done when it ends. -/
def resume? : Active Value → Option (Resume Value)
  | catching .. => none
  | finishing _ resume => some resume

end Active

/-- How a run ends. -/
inductive Result (Value : Type) where
  /-- The method returns, with a value or without one. -/
  | returned (value : Option Value)
  /-- An exception leaves the method. -/
  | threw (exception : Value)

namespace Machine

variable (M : Machine)

/-- The state of a run. -/
structure State where
  /-- The position of the next instruction. -/
  pc : Offset
  /-- What it works on. -/
  frame : Frame M.Value M.Heap
  /-- The handlers that are running, inner ones first. -/
  active : List (Active M.Value)
  /-- What has been observed so far. -/
  trace : List M.Event

/-- A run that has ended. -/
structure Final where
  /-- How it ended. -/
  result : Result M.Value
  /-- What is left behind. -/
  heap : M.Heap
  /-- What was observed. -/
  trace : List M.Event

/-- What comes after a state. -/
inductive Next where
  /-- Another state. -/
  | go (s : M.State)
  /-- Nothing, the run has ended. -/
  | done (f : M.Final)
  /-- Nothing, though it has not. -/
  | stuck

variable {M}

/-! ### Ordinary instructions -/

/-- What an instruction that is no jump does.  The machine itself moves values between
the stack and the locals and loads numbers. -/
def exec (M : Machine) (a : Act Unit) (f : Frame M.Value M.Heap) :
    Outcome M.Value M.Heap M.Event :=
  let i : Instruction Unit := .new a.opcode a.operand
  match i.storedLocal? with
  | some slot =>
    match f.stack with
    | v :: stack => .goes none { f with stack, locals := Function.update f.locals slot v } []
    | [] => .stuck
  | none =>
    match i.loadedLocal? with
    | some slot => .goes none { f with stack := f.locals slot :: f.stack } []
    | none =>
      match i.constant? with
      | some n => .goes none { f with stack := M.int32 n :: f.stack } []
      | none => M.effect a f

/-! ### Handlers -/

/-- Enter the handler of a clause.  Handlers that it is not part of are left. -/
def State.handle (s : M.State) (c : Clause) (stack : List M.Value) (a : Active M.Value) :
    M.State :=
  { s with
    pc := c.handlerOffset
    frame := { s.frame with stack }
    active := a :: s.active.filter fun a => a.clause.handlerContains c.handlerOffset }

/-- Look for a handler among some clauses. -/
def unwind (s : M.State) (exception : M.Value) : List Clause → M.Next
  | [] => .done ⟨.threw exception, s.frame.heap, s.trace⟩
  | c :: rest =>
    if c.isFinallyLike then .go (s.handle c [] (.finishing c (.throw rest exception)))
    else if c.classToken?.any fun type => M.catches type exception s.frame.heap then
      .go (s.handle c [exception] (.catching c exception))
    else unwind s exception rest

/-- Raise an exception: it goes to the clauses that cover the place. -/
def raise (m : Method) (s : M.State) (exception : M.Value) : M.Next :=
  unwind s exception (m.clauses.filter (·.tryContains s.pc))

/-- Leave for a target by way of some finally handlers.  Handlers that the target is not
part of are left. -/
def leaveVia (s : M.State) (target : Offset) : List Clause → M.Next
  | [] =>
    .go { s with
      pc := target
      frame := { s.frame with stack := [] }
      active := s.active.filter fun a => a.clause.handlerContains target }
  | c :: rest => .go (s.handle c [] (.finishing c (.leave rest target)))

/-- Leave for a target: the finally handlers of the protected ranges that are left run
before. -/
def leave (m : Method) (s : M.State) (target : Offset) : M.Next :=
  leaveVia s target
    (m.clauses.filter fun c => c.flags.finally_ && c.tryContains s.pc && !c.tryContains target)

/-- Do what is to be done when a finally handler ends. -/
def resume (s : M.State) : Resume M.Value → M.Next
  | .leave rest target => leaveVia s target rest
  | .throw rest exception => unwind s exception rest

/-! ### Steps -/

/-- Do an instruction that may go to some targets, and else goes on to the next one. -/
def pass (m : Method) (s : M.State) (i : Instruction Offset) (targets : List Offset) : M.Next :=
  match M.exec i.word s.frame with
  | .goes choice frame events =>
    .go { s with
      pc := (choice.bind fun n => targets[n]?).getD i.nextOffset
      frame, trace := s.trace ++ events }
  | .throws exception frame events =>
    raise m { s with frame, trace := s.trace ++ events } exception
  | .stuck => .stuck

/-- What comes of an instruction in a state. -/
def perform (m : Method) (s : M.State) (i : Instruction Offset) : M.Next :=
  match i.opcode.info.flow with
  | .sequential | .call | .modifier => pass m s i []
  | .conditionalBranch | .switch => pass m s i i.operand.targets
  | .unconditionalBranch =>
    match i.operand.targets with
    | target :: _ => .go { s with pc := target }
    | [] => .stuck
  | .leave =>
    match i.operand.targets with
    | target :: _ => leave m s target
    | [] => .stuck
  | .ret =>
    if m.returnsValue then
      match s.frame.stack with
      | v :: _ => .done ⟨.returned (some v), s.frame.heap, s.trace⟩
      | [] => .stuck
    else .done ⟨.returned none, s.frame.heap, s.trace⟩
  | .throws =>
    if i.opcode = Opcode.rethrow then
      match s.active.findSome? Active.caught? with
      | some exception => raise m s exception
      | none => .stuck
    else
      match s.frame.stack with
      | v :: _ =>
        raise m { s with frame := { s.frame with heap := (M.raised v s.frame.heap).2 } }
          (M.raised v s.frame.heap).1
      | [] => .stuck
  | .endFinally =>
    match s.active with
    | .finishing _ next :: active => resume { s with active } next
    | _ => .stuck
  | .endFilter | .jump => .stuck

/-- One step of a run. -/
def step (m : Method) (s : M.State) : M.Next :=
  match m.fetch s.pc with
  | some i => perform m s i
  | none => .stuck

/-- A run that starts in this state ends. -/
inductive Ends (m : Method) : M.State → M.Final → Prop where
  | done {s : M.State} {f : M.Final} : step m s = .done f → Ends m s f
  | go {s s' : M.State} {f : M.Final} : step m s = .go s' → Ends m s' f → Ends m s f

/-- A run comes from one state to another. -/
inductive Reaches (m : Method) : M.State → M.State → Prop where
  | refl (s : M.State) : Reaches m s s
  | go {s s' s'' : M.State} : step m s = .go s' → Reaches m s' s'' → Reaches m s s''

/-- The start of a run. -/
def State.start (locals : UInt16 → M.Value) (heap : M.Heap) : M.State :=
  ⟨0, ⟨[], locals, heap⟩, [], []⟩

end Machine

end CilProbe
