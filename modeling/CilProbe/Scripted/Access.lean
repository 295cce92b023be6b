/-
CilProbe/Scripted/Access.lean

Defining rows in metadata kept in tables, without any runtime.  A `Bench` holds
token caches and the tables of some modules, and rows can be asked for in any
of them.
-/
import CilProbe.Metadata.Emitter
import CilProbe.Metadata.Tables

namespace CilProbe

/-! ### One module -/

/-- Token caches together with the tables of one module. -/
structure TableState where
  /-- The token caches. -/
  emitter : Emitter
  /-- The module's metadata. -/
  tables : MetadataTables

/-- Access to the tables through the cache of the given number. -/
def ModuleAccess.ofTables (id : CacheId) : ModuleAccess (StateM TableState) where
  cache := do return (← get).emitter.cache id
  update f := modify fun s => { s with emitter := s.emitter.modifyCache id f }
  define row := modifyGet fun s =>
    let (answer, tables) := s.tables.define row
    (answer, { s with tables })
  coreLibrary := do return (← get).tables.view.coreLibrary

/-! ### Many modules -/

/-- Token caches together with the tables of modules. -/
structure Bench where
  /-- The token caches. -/
  emitter : Emitter
  /-- The modules' metadata. -/
  modules : Std.ExtTreeMap ModuleId MetadataTables

namespace Bench

/-- The metadata of a module; a module that is not there has none. -/
def tables (b : Bench) (m : ModuleId) : MetadataTables := b.modules[m]?.getD {}

/-- Change the cache of a module, which is made if there is none, and answer
with what the change answers with. -/
def withCache {α : Type} (b : Bench) (m : ModuleId) (change : TokenCache → α × TokenCache) :
    α × Bench :=
  let (id, emitter) := b.emitter.cacheOf m
  let (a, cache) := change (emitter.cache id)
  (a, { b with emitter := emitter.modifyCache id fun _ => cache })

/-- Let the next definitions in a module meet conflicts. -/
def setConflicts (b : Bench) (m : ModuleId) (conflicts : Nat) : Bench :=
  { b with modules := b.modules.modify m fun t => { t with conflicts } }

/-- Ask for a token in a module. -/
def request (b : Bench) (m : ModuleId)
    (ask : ModuleAccess (StateM TableState) → ExceptT Error (StateM TableState) Token) :
    Except Error Token × Bench :=
  let (id, emitter) := b.emitter.cacheOf m
  let (token, s) := (ask (.ofTables id)).run.run ⟨emitter, b.tables m⟩
  (token, ⟨s.emitter, b.modules.modify m fun _ => s.tables⟩)

end Bench

end CilProbe
