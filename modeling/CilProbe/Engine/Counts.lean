/-
CilProbe/Engine/Counts.lean

What an engine counts: the events it was told of, by kind, and the outcomes of
the methods it looked into.
-/
import CilProbe.Host.Event

namespace CilProbe

/-! ### Events -/

/-- How many events there were of each kind. -/
structure EventCounts where
  /-- Modules loaded. -/
  moduleLoads : Nat := 0
  /-- Modules unloaded. -/
  moduleUnloads : Nat := 0
  /-- Functions compiled. -/
  compilations : Nat := 0
  /-- Assemblies unloaded. -/
  assemblyUnloads : Nat := 0
  /-- Runtimes stopped. -/
  shutdowns : Nat := 0
  deriving DecidableEq, Repr, Inhabited

namespace EventCounts

/-- How many events of a kind there were. -/
def get (c : EventCounts) : EventKind → Nat
  | .moduleLoad => c.moduleLoads
  | .moduleUnload => c.moduleUnloads
  | .compilation => c.compilations
  | .assemblyUnload => c.assemblyUnloads
  | .shutdown => c.shutdowns

/-- One event more. -/
def add (c : EventCounts) : EventKind → EventCounts
  | .moduleLoad => { c with moduleLoads := c.moduleLoads + 1 }
  | .moduleUnload => { c with moduleUnloads := c.moduleUnloads + 1 }
  | .compilation => { c with compilations := c.compilations + 1 }
  | .assemblyUnload => { c with assemblyUnloads := c.assemblyUnloads + 1 }
  | .shutdown => { c with shutdowns := c.shutdowns + 1 }

/-- An event adds one to its own kind and nothing to any other. -/
theorem get_add (c : EventCounts) (k k' : EventKind) :
    (c.add k).get k' = c.get k' + if k' = k then 1 else 0 := by
  cases k <;> cases k' <;> rfl

end EventCounts

/-! ### Outcomes -/

/-- What became of a method that rules were tried on. -/
inductive MethodOutcome where
  /-- An instrumented body is in place. -/
  | instrumented
  /-- The method was left alone because of its shape. -/
  | declined
  /-- There was nothing to do. -/
  | passedThrough
  /-- Something went wrong, and the method was left alone. -/
  | failed
  deriving DecidableEq, Repr

/-- All outcomes. -/
def MethodOutcome.all : List MethodOutcome := [instrumented, declined, passedThrough, failed]

/-- How many methods there were of each outcome. -/
structure OutcomeCounts where
  /-- Methods instrumented. -/
  instrumented : Nat := 0
  /-- Methods declined. -/
  declined : Nat := 0
  /-- Methods passed through. -/
  passedThrough : Nat := 0
  /-- Methods failed. -/
  failed : Nat := 0
  deriving DecidableEq, Repr, Inhabited

namespace OutcomeCounts

/-- How many methods had an outcome. -/
def get (c : OutcomeCounts) : MethodOutcome → Nat
  | .instrumented => c.instrumented
  | .declined => c.declined
  | .passedThrough => c.passedThrough
  | .failed => c.failed

/-- One method more. -/
def add (c : OutcomeCounts) : MethodOutcome → OutcomeCounts
  | .instrumented => { c with instrumented := c.instrumented + 1 }
  | .declined => { c with declined := c.declined + 1 }
  | .passedThrough => { c with passedThrough := c.passedThrough + 1 }
  | .failed => { c with failed := c.failed + 1 }

/-- A method adds one to its own outcome and nothing to any other. -/
theorem get_add (c : OutcomeCounts) (o o' : MethodOutcome) :
    (c.add o).get o' = c.get o' + if o' = o then 1 else 0 := by
  cases o <;> cases o' <;> rfl

end OutcomeCounts

end CilProbe
