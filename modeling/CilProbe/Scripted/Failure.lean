/-
CilProbe/Scripted/Failure.lean

Errors as scripts describe them: by kind, with the texts and the number that an
error of that kind carries.
-/
import CilProbe.Error

namespace CilProbe

/-- The description of an error. -/
structure Failure where
  /-- Its kind. -/
  kind : String
  /-- The first text it carries. -/
  first : String := ""
  /-- The second text it carries. -/
  second : String := ""
  /-- The number it carries. -/
  number : Int := 0
  deriving DecidableEq, Repr

/-- The error that is described; one of no known kind is a broken lock. -/
def Failure.error (f : Failure) : Error :=
  match f.kind with
  | "RuntimeUnavailable" => .runtimeUnavailable f.first
  | "IncompatibleVersion" => .incompatibleVersion f.first f.second
  | "Disabled" => .disabled
  | "UnsupportedMethodShape" => .unsupportedShape (.other f.first)
  | "NonConvergentLayout" => .nonConvergentLayout f.number.toNat
  | "MetadataEmissionConflict" => .emissionConflict f.first
  | "VerifierRejection" => .rejected (UInt32.ofInt f.number) (.other f.first)
  | "Malformed" => .malformed (.other f.first)
  | "OutOfBounds" => .outOfBounds
  | "InvalidRule" => .invalidRule f.first (.other f.second)
  | "InvalidConfig" => .invalidConfig f.first f.second
  | "UnknownModule" => .unknownModule (UInt64.ofInt f.number)
  | "TokenNotFound" => .tokenNotFound ⟨UInt32.ofInt f.number⟩
  | "Runtime" => .runtime ⟨Int32.ofInt f.number⟩
  | _ => .lockBroken

end CilProbe
