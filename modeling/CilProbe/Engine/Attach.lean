/-
CilProbe/Engine/Attach.lean

Attaching an engine to a runtime and detaching it.  An engine attaches only if
its configuration says so and the runtime's version will do; once it does, it
is the observer of the runtime's events.  Whoever attached it holds a handle, and
when the handle is given up, in whichever way, the engine is stopped and the
runtime is told once.
-/
import CilProbe.Engine.Dispatch

namespace CilProbe

/-! ### Attaching -/

/-- Whatever error the runtime gives, it means that the runtime is not
available. -/
def Error.asUnavailable : Error → Error
  | .runtimeUnavailable reason => .runtimeUnavailable reason
  | e => .runtimeUnavailable e.message

namespace Engine

/-- The answer of a runtime that is being attached to. -/
def available {α : Type} (answer : Except Error α) : Except Error α :=
  answer.mapError Error.asUnavailable

/-- Attach an engine to a runtime. -/
def attach (config : Config) (registry : Registry) : EngineAttempt Engine := do
  unless config.enabled do throw .disabled
  let version ← demand .version available
  known (version.check config.runtimeHint)
  demand .inspection available
  demand (.register .all) available
  return ofConfig config registry

end Engine

/-! ### Handles -/

/-- What holds an engine attached. -/
structure Handle where
  /-- Whether the runtime was told already. -/
  released : Bool := false
  deriving DecidableEq, Repr

namespace Handle

/-- Stop the engine and tell the runtime, unless this has been done. -/
def release (h : Handle) : Proc EngineState (Except Error Unit × Handle) := do
  if h.released then return (.ok (), h)
  modify fun s => s.tearDown.2
  return (← Proc.query .unregister, { h with released := true })

/-- Give the handle up without caring for the runtime's answer. -/
def drop (h : Handle) : Proc EngineState Unit := do
  let _ ← h.release

/-- Detach the engine, and then give the handle up. -/
def detach (h : Handle) : Proc EngineState (Except Error Unit) := do
  let (answer, h) ← h.release
  h.drop
  return answer

end Handle

end CilProbe
