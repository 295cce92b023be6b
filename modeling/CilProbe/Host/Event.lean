/-
CilProbe/Host/Event.lean

What a runtime tells its observer.  Every event is answered with a status code.
-/
import CilProbe.Error
import CilProbe.Host.Id

namespace CilProbe

/-- The kinds of events. -/
inductive EventKind where
  /-- A module was loaded. -/
  | moduleLoad
  /-- A module is about to go. -/
  | moduleUnload
  /-- A function is about to be compiled. -/
  | compilation
  /-- An assembly is about to go. -/
  | assemblyUnload
  /-- The runtime is about to stop. -/
  | shutdown
  deriving DecidableEq, Repr

/-- All kinds of events. -/
def EventKind.all : List EventKind :=
  [moduleLoad, moduleUnload, compilation, assemblyUnload, shutdown]

/-- Something that the runtime tells its observer. -/
inductive Event where
  /-- A module was loaded, or failed to. -/
  | moduleLoaded (m : ModuleId) (status : StatusCode)
  /-- A module is about to go. -/
  | moduleUnloading (m : ModuleId)
  /-- A function is about to be compiled, and the observer may or may not take
  its time. -/
  | compiling (function : FunctionId) (mayBlock : Bool)
  /-- An assembly is about to go. -/
  | assemblyUnloading (a : AssemblyId)
  /-- The runtime is about to stop. -/
  | shuttingDown
  deriving DecidableEq, Repr

namespace Event

/-- The kind of an event. -/
def kind : Event → EventKind
  | moduleLoaded _ _ => .moduleLoad
  | moduleUnloading _ => .moduleUnload
  | compiling _ _ => .compilation
  | assemblyUnloading _ => .assemblyUnload
  | shuttingDown => .shutdown

/-- The answer of an observer that does not care for an event. -/
def ignore (_ : Event) : StatusCode := .success

end Event

end CilProbe
