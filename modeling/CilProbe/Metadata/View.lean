/-
CilProbe/Metadata/View.lean

What can be asked about a module's metadata.  Every question may fail, and a
view is the collection of all answers at one moment.
-/
import CilProbe.Signature.Name
import CilProbe.Signature.Read

namespace CilProbe

/-! ### Answers -/

/-- What the metadata says about a method definition. -/
structure MethodProps where
  /-- The method's own token. -/
  token : Token
  /-- The type that declares it. -/
  typeToken : Token
  /-- Its name. -/
  name : String
  /-- The bytes of its signature. -/
  signature : List UInt8
  deriving DecidableEq, Repr

/-- Whether the method constructs an instance, which its name says. -/
def MethodProps.isConstructor (p : MethodProps) : Bool := p.name == ".ctor"

/-- Says whether a type can stand where another one is asked for; both are
given by full name. -/
abbrev TypeHierarchy := String → String → Bool

/-- Finds the signature of what a call instruction calls. -/
abbrev CallSites := Token → Except Error MethodSig

/-! ### Views -/

/-- A module's metadata at one moment. -/
structure MetadataView where
  /-- Full names of types. -/
  typeName : TypeNames
  /-- Method definitions. -/
  methodProps : Token → Except Error MethodProps
  /-- Signatures of methods and member references. -/
  memberSignature : Token → Except Error (List UInt8)
  /-- Stand-alone signatures. -/
  standAloneSignature : Token → Except Error (List UInt8)
  /-- The reference to the core library. -/
  coreLibrary : Except Error Token
  /-- The type hierarchy, where it is known. -/
  hierarchy : Option TypeHierarchy

namespace MetadataView

/-- Call sites as the metadata resolves them: a stand-alone signature for a
call through a pointer, and a member's signature for any other. -/
def callSites (v : MetadataView) : CallSites := fun token => do
  let blob ←
    if token.table == Token.standAloneSigTable then v.standAloneSignature token
    else v.memberSignature token
  MethodSig.parse blob

end MetadataView

end CilProbe
