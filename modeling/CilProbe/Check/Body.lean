/-
CilProbe/Check/Body.lean

Checking a method body as the bytes that the runtime will see: it can be read,
its code and clauses have the right shape, and, where the signatures of what it
calls are known, its stack stays within the depth that its header declares.
-/
import CilProbe.Body.MethodBody
import CilProbe.Check.Stack
import CilProbe.Cil.Decode

namespace CilProbe

namespace Check

/-- What reading a body gives, or the rejection that says why it cannot be
read. -/
def readable {α : Type} : Except Error α → Except Error α
  | .ok a => .ok a
  | .error e => reject 0 (.unreadable e.message)

/-- Check a body; the answer is the report on its stack, which needs call
sites. -/
def checkBody (data : List UInt8) (returnsValue : Bool) (callSites : Option CallSites) :
    Except Error (Option StackReport) := do
  let body ← readable (MethodBody.read data)
  let code ← readable (body.code data)
  let instructions ← readable (decode code)
  checkStructure instructions (UInt32.ofNat code.length) body.clauses
  match callSites with
  | none => return none
  | some callSites => do
    let report ← simulateStack instructions body.clauses returnsValue callSites
    require (report.maxDepth ≤ body.maxStack) 0 (.aboveMaxStack report.maxDepth body.maxStack)
    return some report

end Check

end CilProbe
