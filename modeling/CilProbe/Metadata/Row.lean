/-
CilProbe/Metadata/Row.lean

Rows that injected code needs in the metadata of a module.  A row is given by
its content, so two requests for one content are requests for one row.
-/
import CilProbe.Token

namespace CilProbe

/-- A metadata row by its content. -/
inductive MetadataRow where
  /-- A reference to an assembly. -/
  | assemblyRef (name : String)
  /-- A reference to a type, found in a scope. -/
  | typeRef (scope : Token) (name : String)
  /-- A reference to a member of a type. -/
  | memberRef (parent : Token) (name : String) (signature : List UInt8)
  /-- A signature of local variables. -/
  | localSignature (blob : List UInt8)
  deriving DecidableEq, Hashable, Repr

namespace MetadataRow

/-- The table that the row belongs to. -/
def table : MetadataRow → UInt8
  | assemblyRef _ => Token.assemblyRefTable
  | typeRef _ _ => Token.typeRefTable
  | memberRef _ _ _ => Token.memberRefTable
  | localSignature _ => Token.standAloneSigTable

/-- What the row is called when there is a conflict over it. -/
def subject : MetadataRow → String
  | assemblyRef name => name
  | typeRef _ name => name
  | memberRef _ name _ => name
  | localSignature _ => "local signature"

end MetadataRow

end CilProbe
