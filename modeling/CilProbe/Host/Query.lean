/-
CilProbe/Host/Query.lean

What an engine asks of the runtime it is attached to.  `Query` lists the
questions and `Query.Answer` says what kind of answer each has; all but one can
be answered with an error.
-/
import CilProbe.Metadata.Row
import CilProbe.Metadata.View
import CilProbe.Rule.Version
import CilProbe.Host.Id
import CilProbe.Host.Version

namespace CilProbe

/-! ### Answers -/

/-- Where a function comes from. -/
structure FunctionInfo where
  /-- The module it is in. -/
  module : ModuleId
  /-- Its token there. -/
  token : Token
  deriving DecidableEq, Repr

/-- What a loaded module is. -/
structure ModuleInfo where
  /-- The assembly it belongs to. -/
  assembly : AssemblyId
  /-- The assembly's name. -/
  assemblyName : String
  /-- The assembly's version. -/
  assemblyVersion : AssemblyVersion
  deriving DecidableEq, Repr

/-- Which events an observer wants to be told of, one bit a group. -/
structure EventMask where
  /-- The bits. -/
  bits : Nat
  deriving DecidableEq, Repr

namespace EventMask

/-- Loading and unloading of modules. -/
def moduleLoads : Nat := 0x4

/-- Loading and unloading of assemblies. -/
def assemblyLoads : Nat := 0x8

/-- Compilation of functions. -/
def compilations : Nat := 0x20

/-- Everything that an engine wants to be told of. -/
def all : EventMask := ⟨moduleLoads ||| assemblyLoads ||| compilations⟩

end EventMask

/-! ### Questions -/

/-- A question to the runtime, or a demand. -/
inductive Query where
  /-- Its version. -/
  | version
  /-- Whether questions about modules and functions can be asked. -/
  | inspection
  /-- To be told of events. -/
  | register (events : EventMask)
  /-- To be told of no more events. -/
  | unregister
  /-- Where a function comes from. -/
  | functionInfo (function : FunctionId)
  /-- What a module is. -/
  | moduleInfo (m : ModuleId)
  /-- To open a module's metadata. -/
  | openMetadata (m : ModuleId)
  /-- A module's metadata as it is now. -/
  | metadata (m : ModuleId)
  /-- To add a row to a module's metadata. -/
  | define (m : ModuleId) (row : MetadataRow)
  /-- The body of a method. -/
  | readBody (m : ModuleId) (method : Token)
  /-- To use another body for a method from now on. -/
  | install (m : ModuleId) (method : Token) (body : List UInt8)
  deriving DecidableEq, Repr

/-- What a question can be answered with. -/
abbrev Query.Answer : Query → Type
  | .version => Except Error RuntimeVersion
  | .inspection => Except Error Unit
  | .register _ => Except Error Unit
  | .unregister => Except Error Unit
  | .functionInfo _ => Except Error FunctionInfo
  | .moduleInfo _ => Except Error ModuleInfo
  | .openMetadata _ => Except Error Unit
  | .metadata _ => MetadataView
  | .define _ _ => Except Error Token
  | .readBody _ _ => Except Error (List UInt8)
  | .install _ _ _ => Except Error Unit

end CilProbe
