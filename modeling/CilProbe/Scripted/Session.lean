/-
CilProbe/Scripted/Session.lean

An engine together with a scripted runtime, one step after the other.  In a
session the engine is either attached, and then somebody holds its handle, or
it is handed the events directly without being attached at all.
-/
import CilProbe.Engine.Attach
import CilProbe.Scripted.Host

namespace CilProbe

/-- An engine and the scripted runtime that it works with. -/
structure Session where
  /-- The engine that events are delivered to, if one was registered. -/
  engine : Option Engine
  /-- The handle that holds it attached, if there is one. -/
  handle : Option Handle
  /-- The state of both. -/
  world : World EngineState ScriptedRuntime

namespace Session

/-! ### Starting -/

/-- An engine that is handed events without being attached. -/
def direct (config : Config) (registry : Registry) (runtime : ScriptedRuntime) : Session where
  engine := some (.ofConfig config registry)
  handle := none
  world := ⟨.fresh config.retryLimit, runtime⟩

/-- Attach an engine; if that fails, there is no engine in the session. -/
def attach (config : Config) (registry : Registry) (runtime : ScriptedRuntime) :
    Except Error Unit × Session :=
  let start : World EngineState ScriptedRuntime := ⟨.fresh config.retryLimit, runtime⟩
  match (Engine.attach config registry).run.run ScriptedRuntime.host (fun _ w => w) start with
  | (.ok engine, world) => (.ok (), ⟨some engine, some {}, world⟩)
  | (.error e, world) => (.error e, ⟨none, none, world⟩)

/-! ### Steps -/

/-- Events that the runtime delivers before it answers may nest this deep: each
uses up one of its hooks. -/
def depth (s : Session) : Nat := s.world.host.hooks.length

/-- Deliver an event, if there is an engine to deliver it to. -/
def deliver (s : Session) (event : Event) : Option StatusCode × Session :=
  match s.engine with
  | none => (none, s)
  | some engine =>
    let (code, world) := engine.deliver ScriptedRuntime.host s.depth event s.world
    (some code, { s with world })

/-- Run a computation that uses the handle up, if there is a handle. -/
def giveUp {α : Type} (s : Session) (use : Handle → Proc EngineState α) : Option α × Session :=
  match s.handle with
  | none => (none, s)
  | some handle =>
    let (a, world) := (use handle).run ScriptedRuntime.host (fun _ w => w) s.world
    (some a, { s with handle := none, world })

/-- Detach the engine, if it is attached. -/
def detach (s : Session) : Option (Except Error Unit) × Session := s.giveUp Handle.detach

/-- Let go of the handle; the answer is whether there was one. -/
def drop (s : Session) : Bool × Session :=
  let (done, s) := s.giveUp Handle.drop
  (done.isSome, s)

/-- Change the runtime's script. -/
def modifyRuntime (s : Session) (f : ScriptedRuntime → ScriptedRuntime) : Session :=
  { s with world := { s.world with host := f s.world.host } }

/-! ### What can be seen -/

/-- The engine's state. -/
def state (s : Session) : EngineState := s.world.engine

/-- The runtime as it is now. -/
def runtime (s : Session) : ScriptedRuntime := s.world.host

end Session

end CilProbe
