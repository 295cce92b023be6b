/-
CilProbe/Scripted/Host.lean

A runtime that follows a script: its modules and functions are listed, and it
can be told to refuse what it is asked, or to deliver an event the next time it
is asked a certain kind of question.  An engine can be run against it without
any real runtime, and what the engine did can be read off afterwards.
-/
import Std.Data.ExtTreeMap
import CilProbe.Engine.Proc
import CilProbe.Metadata.Tables

namespace CilProbe

/-! ### Scripts -/

/-- A module that the runtime has loaded. -/
structure ScriptedModule where
  /-- What it is. -/
  info : ModuleInfo
  /-- Its metadata. -/
  tables : MetadataTables
  /-- Why its metadata cannot be opened, if it cannot. -/
  openError : Option Error := none

/-- The kinds of questions before which an event can be delivered. -/
inductive HookPoint where
  /-- Where a function comes from. -/
  | functionInfo
  /-- What a module is. -/
  | moduleInfo
  /-- Opening metadata. -/
  | openMetadata
  /-- Reading a body. -/
  | readBody
  /-- Installing a body. -/
  | install
  deriving DecidableEq, Repr

/-- The kinds of questions by name. -/
def HookPoint.named : List (String × HookPoint) :=
  [("function_info", .functionInfo), ("module_info", .moduleInfo),
    ("module_metadata", .openMetadata), ("body", .readBody), ("install", .install)]

/-- The kind of a question. -/
def Query.hookPoint? : Query → Option HookPoint
  | .functionInfo _ => some .functionInfo
  | .moduleInfo _ => some .moduleInfo
  | .openMetadata _ => some .openMetadata
  | .readBody _ _ => some .readBody
  | .install _ _ _ => some .install
  | _ => none

/-- A call that has to do with attaching and detaching. -/
inductive HostCall where
  /-- Asked for its version. -/
  | version
  /-- Asked whether questions can be asked. -/
  | inspection
  /-- Asked to register an observer. -/
  | register
  /-- An observer was registered for these events. -/
  | registered (events : EventMask)
  /-- Asked to unregister its observer. -/
  | unregister
  deriving DecidableEq, Repr

/-- A body that was installed. -/
structure Installation where
  /-- The module. -/
  module : ModuleId
  /-- The method. -/
  method : Token
  /-- The body. -/
  body : List UInt8
  deriving DecidableEq, Repr

/-- A runtime that follows a script. -/
structure ScriptedRuntime where
  /-- The version it reports. -/
  version : RuntimeVersion := ⟨"8.0.4"⟩
  /-- Why it reports none, if it does not. -/
  versionError : Option Error := none
  /-- Why questions cannot be asked, if they cannot. -/
  inspectionError : Option Error := none
  /-- Why no observer can be registered, if none can. -/
  registerError : Option Error := none
  /-- The error with which an observer is unregistered, if there is one. -/
  unregisterError : Option Error := none
  /-- Its modules. -/
  modules : Std.ExtTreeMap ModuleId ScriptedModule := ∅
  /-- Where its functions come from. -/
  functions : Std.ExtTreeMap FunctionId FunctionInfo := ∅
  /-- The bodies of methods; what is installed does not show here. -/
  bodies : Std.ExtHashMap (ModuleId × Token) (List UInt8) := ∅
  /-- The status code with which it refuses to install bodies, if it does. -/
  refusal : Option StatusCode := none
  /-- The events to be delivered, one for a kind of question at most. -/
  hooks : List (HookPoint × Event) := []
  /-- The calls so far. -/
  calls : Array HostCall := #[]
  /-- The bodies installed so far. -/
  installations : Array Installation := #[]

namespace ScriptedRuntime

/-! ### Changing the script -/

/-- Deliver an event the next time a question of some kind is asked, in place of
any other event that was to be delivered then. -/
def hook (r : ScriptedRuntime) (point : HookPoint) (event : Event) : ScriptedRuntime :=
  { r with hooks := (point, event) :: r.hooks.filter fun (p, _) => p != point }

/-- Let the next definitions in a module meet conflicts. -/
def setConflicts (r : ScriptedRuntime) (m : ModuleId) (conflicts : Nat) : ScriptedRuntime :=
  { r with
    modules := r.modules.modify m fun s => { s with tables := { s.tables with conflicts } } }

/-! ### Answering -/

/-- A module of the runtime's. -/
def find (r : ScriptedRuntime) (m : ModuleId) : Except Error ScriptedModule :=
  match r.modules[m]? with
  | some s => .ok s
  | none => .error (.unknownModule m)

/-- Succeed, or fail with the error given. -/
def unlessError : Option Error → Except Error Unit
  | none => .ok ()
  | some e => .error e

/-- Where a function comes from. -/
def functionInfo (r : ScriptedRuntime) (function : FunctionId) : Except Error FunctionInfo :=
  match r.functions[function]? with
  | some info => .ok info
  | none => .error (.unknownModule function)

/-- The body of a method. -/
def body (r : ScriptedRuntime) (m : ModuleId) (method : Token) : Except Error (List UInt8) :=
  match r.bodies[(m, method)]? with
  | some body => .ok body
  | none => .error (.tokenNotFound method)

/-- A module's metadata; that of a module there is not holds nothing. -/
def metadata (r : ScriptedRuntime) (m : ModuleId) : MetadataView :=
  match r.modules[m]? with
  | some s => s.tables.view
  | none => { ({} : MetadataTables) with core := none }.view

/-- Define a row in a module's metadata. -/
def define (r : ScriptedRuntime) (m : ModuleId) (row : MetadataRow) :
    Except Error Token × ScriptedRuntime :=
  match r.modules[m]? with
  | some s =>
    let (token, tables) := s.tables.define row
    (token, { r with modules := r.modules.insert m { s with tables } })
  | none => (.error (.unknownModule m), r)

/-- Install a body.  A refusal with a failing status code is an error; one with
a code of success only looks as if the body were installed. -/
def install (r : ScriptedRuntime) (i : Installation) : Except Error Unit × ScriptedRuntime :=
  match r.refusal with
  | none => (.ok (), { r with installations := r.installations.push i })
  | some code => (code.check, r)

/-- Note a call. -/
def note (r : ScriptedRuntime) (call : HostCall) : ScriptedRuntime :=
  { r with calls := r.calls.push call }

/-- Register an observer. -/
def register (r : ScriptedRuntime) (events : EventMask) : Except Error Unit × ScriptedRuntime :=
  let r := r.note .register
  match r.registerError with
  | none => (.ok (), r.note (.registered events))
  | some e => (.error e, r)

/-- The answer to a question. -/
def answer (r : ScriptedRuntime) : (q : Query) → q.Answer × ScriptedRuntime
  | .version => ((unlessError r.versionError).map fun _ => r.version, r.note .version)
  | .inspection => (unlessError r.inspectionError, r.note .inspection)
  | .register events => r.register events
  | .unregister => (unlessError r.unregisterError, r.note .unregister)
  | .functionInfo function => (r.functionInfo function, r)
  | .moduleInfo m => ((r.find m).map ScriptedModule.info, r)
  | .openMetadata m => ((r.find m).bind fun s => unlessError s.openError, r)
  | .metadata m => (r.metadata m, r)
  | .define m row => r.define m row
  | .readBody m method => (r.body m method, r)
  | .install m method body => r.install ⟨m, method, body⟩

/-- The events to be delivered before a question is answered; they are delivered
once. -/
def interrupts (q : Query) (r : ScriptedRuntime) : List Event × ScriptedRuntime :=
  match q.hookPoint? with
  | none => ([], r)
  | some point =>
    let (due, later) := r.hooks.partition fun (p, _) => p == point
    (due.map Prod.snd, { r with hooks := later })

/-- How the runtime behaves. -/
def host : Host ScriptedRuntime := ⟨interrupts, fun q r => r.answer q⟩

/-! ### Reading off what happened -/

/-- The methods that functions of a module come from, in the order of their
tokens. -/
def methodsOf (r : ScriptedRuntime) (m : ModuleId) : List Token :=
  let own := r.functions.toList.filterMap fun (_, info) =>
    if info.module == m then some info.token else none
  own.eraseDups.mergeSort fun a b => a.value ≤ b.value

/-- The rows that were defined since the runtime was as in `old`, module by
module. -/
def definedSince (r old : ScriptedRuntime) : List (ModuleId × Token × MetadataRow) :=
  r.modules.toList.flatMap fun (m, s) =>
    let before := (old.modules[m]?.map ScriptedModule.tables).getD {}
    (s.tables.definedSince before).map (m, ·)

/-- The bodies that were installed since the runtime was as in `old`. -/
def installedSince (r old : ScriptedRuntime) : List Installation :=
  r.installations.toList.drop old.installations.size

end ScriptedRuntime

end CilProbe
