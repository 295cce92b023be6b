/-
CilProbe/Host/Id.lean

How a runtime names things.  Modules, assemblies and functions are opaque
64-bit numbers; `Text.hex` is how all three are shown.
-/
import CilProbe.Text.Radix

namespace CilProbe

/-- The runtime's number for a loaded module. -/
abbrev ModuleId := UInt64

/-- The runtime's number for a loaded assembly. -/
abbrev AssemblyId := UInt64

/-- The runtime's number for a function to be compiled. -/
abbrev FunctionId := UInt64

/-- A number of the runtime's as it is shown. -/
def displayId (id : UInt64) : String := Text.hex id.toNat

end CilProbe
