/-
CilProbe/Engine/State.lean

What an engine remembers between events: a record of every loaded module with
the methods claimed in it, the token caches, and its counts.

Records and caches have numbers.  A compilation under way keeps the number of
the record it started with, so that a module which is unloaded or loaded anew
meanwhile cannot lend it another record; only records that are live count.
Once the state is torn down, no module is recorded again.
-/
import Std.Data.ExtHashMap
import Std.Data.ExtTreeMap
import CilProbe.Engine.Counts
import CilProbe.Metadata.Emitter
import CilProbe.Rule.Selection

namespace CilProbe

/-! ### Records -/

/-- A claim to a method: whoever has it may instrument the method. -/
structure Claim where
  /-- The claim's number; every attempt to claim uses up one. -/
  ticket : Nat
  /-- The integration whose rule was selected. -/
  integration : String
  deriving DecidableEq, Repr

/-- What is known of a loaded module. -/
structure ModuleRecord where
  /-- The module. -/
  module : ModuleId
  /-- The assembly it belongs to. -/
  assembly : AssemblyId
  /-- Name and version of the assembly. -/
  identity : AssemblyIdentity
  /-- The rules that may apply to its methods. -/
  candidates : List Rule
  /-- Whether its metadata is open, which it is only where there are
  candidates. -/
  metadataOpen : Bool
  /-- The token cache it had when it was recorded. -/
  cache : CacheId
  /-- The methods claimed. -/
  claims : Std.ExtHashMap Token Claim := ∅

/-- The number of a record; numbers are never used twice. -/
abbrev RecordId := Nat

/-! ### The state -/

/-- What an engine remembers between events. -/
structure EngineState where
  /-- Whether the engine has stopped for good. -/
  tornDown : Bool := false
  /-- All records ever made, by number. -/
  records : Array ModuleRecord := #[]
  /-- The records of the modules that are loaded. -/
  live : Std.ExtTreeMap ModuleId RecordId := ∅
  /-- The token caches. -/
  emitter : Emitter
  /-- The events so far. -/
  events : EventCounts := {}
  /-- The outcomes so far. -/
  outcomes : OutcomeCounts := {}
  /-- The number of the next claim. -/
  nextTicket : Nat := 1

/-- Counts and live state at one moment. -/
structure EngineStats where
  /-- The events so far. -/
  events : EventCounts
  /-- The outcomes so far. -/
  outcomes : OutcomeCounts
  /-- How many modules are recorded. -/
  modules : Nat
  /-- How many methods are claimed in them. -/
  claimed : Nat
  deriving DecidableEq, Repr

namespace EngineState

/-- The state of an engine that was told of nothing yet. -/
def fresh (retryLimit : Nat) : EngineState := { emitter := .empty retryLimit }

/-! ### Looking up -/

/-- The record of a number. -/
def record? (s : EngineState) (id : RecordId) : Option ModuleRecord := s.records[id]?

/-- The record of a loaded module, with its number. -/
def find? (s : EngineState) (m : ModuleId) : Option (RecordId × ModuleRecord) :=
  s.live[m]?.bind fun id => (s.record? id).map (id, ·)

/-- The live records, in the order of their modules. -/
def liveRecords (s : EngineState) : List ModuleRecord :=
  s.live.toList.filterMap fun (_, id) => s.record? id

/-- Counts and live state at this moment. -/
def stats (s : EngineState) : EngineStats where
  events := s.events
  outcomes := s.outcomes
  modules := s.live.size
  claimed := s.liveRecords.foldl (fun total r => total + r.claims.size) 0

/-! ### Counting -/

/-- Count an event. -/
def countEvent (s : EngineState) (k : EventKind) : EngineState :=
  { s with events := s.events.add k }

/-- Count what became of a method. -/
def countOutcome (s : EngineState) (o : MethodOutcome) : EngineState :=
  { s with outcomes := s.outcomes.add o }

/-! ### Modules -/

/-- The number of a module's token cache, which is made if there is none. -/
def tokenCache (s : EngineState) (m : ModuleId) : CacheId × EngineState :=
  let (id, emitter) := s.emitter.cacheOf m
  (id, { s with emitter })

/-- Record a loaded module in place of any older record of it.  Once the state
is torn down the module is not recorded and its cache is forgotten. -/
def insert (s : EngineState) (r : ModuleRecord) : Option RecordId × EngineState :=
  if s.tornDown then (none, { s with emitter := s.emitter.evict r.module })
  else
    (some s.records.size,
      { s with records := s.records.push r, live := s.live.insert r.module s.records.size })

/-- Forget a module together with its token cache. -/
def remove (s : EngineState) (m : ModuleId) : EngineState :=
  { s with live := s.live.erase m, emitter := s.emitter.evict m }

/-- The loaded modules of an assembly, in order. -/
def modulesOf (s : EngineState) (a : AssemblyId) : List ModuleId :=
  (s.liveRecords.filter (·.assembly == a)).map ModuleRecord.module

/-- Forget all modules of an assembly. -/
def removeAssembly (s : EngineState) (a : AssemblyId) : EngineState :=
  (s.modulesOf a).foldl remove s

/-- Stop for good and forget all modules; the answer is whether this had not
happened before. -/
def tearDown (s : EngineState) : Bool × EngineState :=
  if s.tornDown then (false, s)
  else (true, { s with tornDown := true, live := ∅, emitter := s.emitter.clear })

/-! ### Claims -/

/-- Claim a method for an integration.  The first claim to a method of a record
is the only one that succeeds. -/
def claim (s : EngineState) (id : RecordId) (method : Token) (integration : String) :
    Bool × EngineState :=
  let claimed := (s.record? id).any fun r => r.claims.contains method
  let put (r : ModuleRecord) : ModuleRecord :=
    { r with claims := r.claims.insertIfNew method ⟨s.nextTicket, integration⟩ }
  (!claimed, { s with records := s.records.modify id put, nextTicket := s.nextTicket + 1 })

end EngineState

end CilProbe
