/-
CilProbe/Probe/Insertion.lean

Instrumenting a method.  Code that already starts with the entry probe for the
same method is left as it is, so instrumenting twice changes nothing; methods
of a shape that the probes cannot keep intact are declined.
-/
import CilProbe.Cil.Decode
import CilProbe.Probe.Draft

namespace CilProbe

/-! ### What is left alone -/

/-- Whether code starts with the entry probe for `method`. -/
def isProbed (code : List (Instruction Offset)) (method enter : Token) : Bool :=
  match code with
  | load :: call :: _ =>
    load.constant? == some method.value.toInt32 && call.opcode == Opcode.call &&
      call.token? == some enter
  | _ => false

namespace ProbeRequest

/-- Decline a method of the given shape. -/
def decline (shape : MethodShape) : Except Error Unit := .error (.unsupportedShape shape)

/-- Decline an instruction that no probe can be wrapped around. -/
def checkInstruction (i : Instruction Offset) : Except Error Unit :=
  if i.opcode = Opcode.jmp then decline .jump
  else if i.opcode = Opcode.tail then decline .tailCall
  else if i.opcode = Opcode.localloc then decline .localAllocation
  else .ok ()

/-- Decline a method whose result or kind the exit probe cannot keep intact. -/
def checkExit (r : ProbeRequest) : Except Error Unit :=
  if r.isConstructor then decline .instanceConstructor
  else if r.signature.ret.isByRefLike then decline .byRefReturn
  else if r.signature.ret.unmodified.isOpen then decline .genericReturn
  else .ok ()

/-- Decline methods of unsupported shape, and refuse locals that do not belong
to the body. -/
def checkShape (r : ProbeRequest) (body : MethodBody) (code : List (Instruction Offset)) :
    Except Error Unit := do
  if body.clauses.any Clause.isFilter then decline .exceptionFilter
  code.forM checkInstruction
  if r.policy.exit then r.checkExit
  if body.localSignature?.isSome == r.locals.isEmpty then
    throw (.malformed (.localsMismatch body.localsToken))

/-- The body of a request with its code, which must not be empty. -/
def read (r : ProbeRequest) : Except Error (MethodBody × List UInt8) := do
  let body ← MethodBody.read r.body
  let code ← body.code r.body
  if code.isEmpty then decline .emptyBody
  return (body, code)

end ProbeRequest

/-! ### Instrumenting -/

/-- Passes that a layout may take unless said otherwise. -/
def defaultPassLimit : Nat := 32

/-- The exit helper's token, and that of the class of all exceptions where
those are observed. -/
def TokenSource.exitTokens {m : Type → Type} [Monad m] (source : TokenSource m)
    (request : ProbeRequest) (slots : ExitSlots) : ExceptT Error m (Token × Option Token) := do
  let exit ← source.exit (slots.value.map fun _ => request.signature.ret.unmodified)
  let exceptionType ← if request.policy.exception then some <$> source.exceptionType else pure none
  return (exit, exceptionType)

/-- Instrument a method; its layout may take `passLimit` passes, and at least
one. -/
def probe {m : Type → Type} [Monad m] (passLimit : Nat) (request : ProbeRequest)
    (source : TokenSource m) : ExceptT Error m ProbeOutcome := do
  let (body, code) ← ExceptT.mk (pure request.read)
  let instructions ← ExceptT.mk (pure (decode code))
  let enter ← source.enter
  if isProbed instructions request.method enter then return .alreadyProbed
  ExceptT.mk (pure (request.checkShape body instructions))
  let draft ← ExceptT.mk (pure (Draft.ofRequest request body instructions code.length))
  let draft ← ExceptT.mk (pure (draft.insertEntry request.method enter))
  let draft ←
    match draft.exitSlots with
    | none => pure draft
    | some slots => do
      let (exit, exceptionType) ← source.exitTokens request slots
      ExceptT.mk (pure (draft.wrapExit slots exit exceptionType))
  let blob ← ExceptT.mk (pure draft.locals.encode)
  let localsToken ← source.localSignature blob
  return .probed (← ExceptT.mk (pure (draft.finish (max passLimit 1) localsToken)))

end CilProbe
