/-
CilProbe/Engine/HelperTokens.lean

The tokens that injected code refers to.  They are asked for in a fixed order,
the helper's assembly before its type and the type before its members, and each
is a row of the module in which the code is injected.
-/
import CilProbe.Metadata.TokenCache
import CilProbe.Rule.Basic
import CilProbe.Signature.Write

namespace CilProbe

/-! ### Signatures of the helper's methods -/

namespace HelperRef

/-- The entry helper takes the method's token and answers with a number to hand
to the exit helper. -/
def enterSignature : MethodSig := .static (.primitive .i8) [.primitive .i4]

/-- The exit helper takes the value returned, if there is one, the exception that
passed, and the number from the entry. -/
def exitSignature (ret : Option TypeSig) : MethodSig :=
  .static (.primitive .void) (ret.toList ++ [.primitive .object, .primitive .i8])

/-! ### Tokens -/

variable {m : Type → Type} [Monad m]

/-- The token of the helper's type. -/
def typeToken (h : HelperRef) (a : ModuleAccess m) : ExceptT Error m Token := do
  let scope ← a.token (.assemblyRef h.assembly)
  a.token (.typeRef scope h.typeName)

/-- The token of one of the helper's methods. -/
def methodToken (h : HelperRef) (a : ModuleAccess m) (name : String) (signature : MethodSig) :
    ExceptT Error m Token := do
  let parent ← h.typeToken a
  let blob ← ExceptT.mk (pure signature.encode)
  a.token (.memberRef parent name blob)

/-- The token of the class that every exception can be kept in. -/
def objectToken (a : ModuleAccess m) : ExceptT Error m Token := do
  let scope ← ExceptT.mk a.coreLibrary
  a.token (.typeRef scope Primitive.object.name)

/-- The tokens for code that calls the helper, in the module that `a` gives
access to. -/
def tokens (h : HelperRef) (a : ModuleAccess m) : TokenSource m where
  enter := h.methodToken a h.enterMethod enterSignature
  exit ret := h.methodToken a h.exitMethod (exitSignature ret)
  exceptionType := objectToken a
  localSignature blob := a.token (.localSignature blob)

end HelperRef

end CilProbe
