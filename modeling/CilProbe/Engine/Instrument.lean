/-
CilProbe/Engine/Instrument.lean

What an engine does when a function is about to be compiled.  It looks up what
the function is, selects the first rule that applies, claims the method, and
only then reads, instruments, checks and installs its body.  Most functions are
dismissed before any signature is read.

`Engine.compile` answers with what became of the method, or with nothing if the
function was dismissed early or the engine was stopped meanwhile.
-/
import CilProbe.Check.Body
import CilProbe.Engine.Config
import CilProbe.Engine.HelperTokens
import CilProbe.Engine.Proc
import CilProbe.Engine.State
import CilProbe.Rule.Registry

namespace CilProbe

/-- What an engine works by. -/
structure Engine where
  /-- Its rules. -/
  registry : Registry
  /-- Passes that a layout may take. -/
  passLimit : Nat
  /-- How thoroughly instrumented bodies are checked. -/
  verify : VerifyMode

/-- A computation of an engine that may fail. -/
abbrev EngineAttempt := Attempt EngineState

namespace Engine

/-- The engine for a configuration and rules. -/
def ofConfig (config : Config) (registry : Registry) : Engine :=
  ⟨registry, config.maxLayoutPasses, config.verify⟩

/-! ### Asking -/

/-- Ask a question that can be answered with an error. -/
def demand {α : Type} (q : Query) (answer : q.Answer → Except Error α) : EngineAttempt α :=
  ExceptT.mk do return answer (← Proc.query q)

/-- A result that is there already. -/
def known {α : Type} (r : Except Error α) : EngineAttempt α := ExceptT.mk (pure r)

/-- A module's metadata as it is now. -/
def metadata (m : ModuleId) : EngineAttempt MetadataView :=
  demand (.metadata m) .ok

/-- Access to a module's metadata through the token cache of the given number. -/
def moduleAccess (m : ModuleId) (id : CacheId) : ModuleAccess (Proc EngineState) where
  cache := do return (← get).emitter.cache id
  update f := modify fun s => { s with emitter := s.emitter.modifyCache id f }
  define row := Proc.query (.define m row)
  coreLibrary := do return (← Proc.query (.metadata m)).coreLibrary

/-! ### Finding the method -/

/-- A method that was found, with the record of its module. -/
structure Subject where
  /-- Number of the record. -/
  id : RecordId
  /-- The record as it was found. -/
  record : ModuleRecord
  /-- What the metadata says about the method. -/
  props : MethodProps
  /-- The names of everything about it. -/
  descriptor : MethodDescriptor

/-- The record that rules are found in for a function, and the function's token;
there is none if the module is not loaded or no rule is about it. -/
def locate (function : FunctionId) : EngineAttempt (Option (RecordId × ModuleRecord × Token)) := do
  let info ← demand (.functionInfo function) id
  -- the question may have changed the state, which is read only now
  let some (id, record) := (← get).find? info.module | return none
  if record.candidates.isEmpty || !record.metadataOpen then return none
  return some (id, record, info.token)

/-- The first rule that applies to a method; the outer option is empty if the
method's name alone rules out all of them. -/
def selectRule (e : Engine) (id : RecordId) (record : ModuleRecord) (token : Token) :
    EngineAttempt (Option (Option (Subject × Rule))) := do
  let view ← metadata record.module
  let props ← known (view.methodProps token)
  if !e.registry.mightMatch record.candidates props.name then return none
  let descriptor ← known (MethodDescriptor.resolve view props record.identity)
  let rule := Rule.select record.candidates
    { typeToken := props.typeToken, methodToken := props.token, descriptor,
      hierarchy := view.hierarchy }
  return some (rule.map (({ id, record, props, descriptor }, ·)))

/-! ### Instrumenting it -/

/-- Read the body and the locals' signature of a method. -/
def readMethod (s : Subject) : EngineAttempt (List UInt8 × List UInt8) := do
  let body ← demand (.readBody s.record.module s.props.token) id
  match (← known (MethodBody.read body)).localSignature? with
  | none => return (body, [])
  | some token => do
    let view ← metadata s.record.module
    return (body, ← known (view.standAloneSignature token))

/-- What is asked for when a rule applies to a method. -/
def request (s : Subject) (rule : Rule) (body locals : List UInt8) : ProbeRequest where
  method := s.props.token
  body := body
  signature := s.descriptor.signature
  locals := locals
  isConstructor := s.props.isConstructor
  policy := rule.policy

/-- Check an instrumented body as thoroughly as the engine is set up to. -/
def check (e : Engine) (s : Subject) (body : List UInt8) : EngineAttempt Unit := do
  let returnsValue := !s.descriptor.signature.ret.isVoid
  match e.verify with
  | .off => return
  | .structural => do
    let _ ← known (Check.checkBody body returnsValue none)
  | .full => do
    let view ← metadata s.record.module
    let _ ← known (Check.checkBody body returnsValue (some view.callSites))

/-- Install an instrumented body, under the writer lock of the module, unless
the engine was stopped meanwhile. -/
def install (s : Subject) (body : List UInt8) : EngineAttempt (Option MethodOutcome) := do
  -- no question is asked between the look at the state and the demand
  let state ← get
  known (state.emitter.cache s.record.cache).lock
  if state.tornDown then return none
  demand (.install s.record.module s.props.token body) id
  return some .instrumented

/-- Instrument a method that was claimed. -/
def instrument (e : Engine) (s : Subject) (rule : Rule) : EngineAttempt (Option MethodOutcome) := do
  let (body, locals) ← readMethod s
  let tokens := rule.helper.tokens (moduleAccess s.record.module s.record.cache)
  let attempt ← ExceptT.lift (probe e.passLimit (request s rule body locals) tokens).run
  match attempt with
  | .ok (.probed method) => do
    e.check s method.body
    install s method.body
  | .ok .alreadyProbed => return some .passedThrough
  | .error reason =>
    if reason.isDecline then return some .declined else throw reason

/-! ### All together -/

/-- Claim a method for the integration of a rule. -/
def claim (s : Subject) (rule : Rule) : EngineAttempt Bool :=
  modifyGet fun state => state.claim s.id s.props.token rule.integration

/-- Deal with a function that is about to be compiled. -/
def compile (e : Engine) (function : FunctionId) : EngineAttempt (Option MethodOutcome) := do
  let some (id, record, token) ← locate function | return none
  match ← e.selectRule id record token with
  | none => return none
  | some none => return some .passedThrough
  | some (some (s, rule)) =>
    if ← claim s rule then e.instrument s rule else return some .passedThrough

end Engine

end CilProbe
