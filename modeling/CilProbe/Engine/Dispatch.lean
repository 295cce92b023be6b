/-
CilProbe/Engine/Dispatch.lean

How an engine deals with events.  Every event is answered with success, whatever
went wrong: a module that cannot be looked into is not recorded, and a method
that cannot be instrumented keeps its body.  Once the engine is stopped, events
are not even counted.

`Engine.deliver` hands an event to an engine attached to a runtime.  The runtime
may deliver further events before it answers a question, and those are dealt
with first.
-/
import CilProbe.Engine.Instrument

namespace CilProbe

namespace Engine

/-! ### Loading -/

/-- What is recorded of a module. -/
def recordOf (m : ModuleId) (info : ModuleInfo) (candidates : List Rule) (cache : CacheId) :
    ModuleRecord where
  module := m
  assembly := info.assembly
  identity := ⟨info.assemblyName, info.assemblyVersion⟩
  candidates := candidates
  metadataOpen := !candidates.isEmpty
  cache := cache

/-- Record a module, with the token cache it has or gets. -/
def enroll (s : EngineState) (m : ModuleId) (info : ModuleInfo) (candidates : List Rule) :
    EngineState :=
  let (cache, s) := s.tokenCache m
  (s.insert (recordOf m info candidates cache)).2

/-- Deal with a module that was loaded; its metadata is opened only if some rule
may apply to it. -/
def loadModule (e : Engine) (m : ModuleId) : EngineAttempt Unit := do
  let info ← demand (.moduleInfo m) id
  let candidates := e.registry.candidatesFor ⟨info.assemblyName, info.assemblyVersion⟩
  unless candidates.isEmpty do demand (.openMetadata m) id
  -- the engine may have been stopped meanwhile; `enroll` sees to that
  modify fun s => enroll s m info candidates

/-! ### Events -/

/-- What a compilation adds to the counts; an error is one more outcome. -/
def countResult : Except Error (Option MethodOutcome) → EngineState → EngineState
  | .ok none, s => s
  | .ok (some outcome), s => s.countOutcome outcome
  | .error _, s => s.countOutcome .failed

/-- Deal with an event that was counted. -/
def act (e : Engine) : Event → Proc EngineState Unit
  | .moduleLoaded m status => do
    if status.isOk then
      let _ ← (e.loadModule m).run
  | .moduleUnloading m => modify (·.remove m)
  | .compiling function _ => do
    let result ← (e.compile function).run
    modify (countResult result)
  | .assemblyUnloading a => modify (·.removeAssembly a)
  | .shuttingDown => modify fun s => s.tearDown.2

/-- Deal with an event. -/
def handle (e : Engine) (event : Event) : Proc EngineState StatusCode := do
  unless (← get).tornDown do
    modify (·.countEvent event.kind)
    e.act event
  return .success

/-! ### Delivery -/

variable {τ : Type}

/-- Deliver an event to an engine.  Events that the runtime delivers meanwhile
may nest up to the given depth, below which it delivers none. -/
def deliver (e : Engine) (h : Host τ) :
    Nat → Event → World EngineState τ → StatusCode × World EngineState τ
  | 0, event, w => (e.handle event).run h (fun _ w => w) w
  | depth + 1, event, w =>
    (e.handle event).run h (fun event w => (e.deliver h depth event w).2) w

end Engine

end CilProbe
