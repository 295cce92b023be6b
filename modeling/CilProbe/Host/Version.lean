/-
CilProbe/Host/Version.lean

Versions of runtimes.  A runtime reports its version as text with points in it;
all that is read from it is the first component as a number, and whether it
starts with the components of a hint.
-/
import CilProbe.Error
import CilProbe.Text.Blank

namespace CilProbe

/-- The version that a runtime reports. -/
structure RuntimeVersion where
  /-- The version as reported. -/
  text : String
  deriving DecidableEq, Repr, Inhabited

namespace RuntimeVersion

/-- The largest number that a first component can be. -/
def majorLimit : Nat := 0xFFFFFFFF

/-- The components, with points between them in the text. -/
def components (v : RuntimeVersion) : List String := Text.split '.' v.text

/-- The first component as a number; a version that starts with anything else
has none. -/
def major? (v : RuntimeVersion) : Option Nat :=
  v.components.head?.bind fun part => Text.readDecimal? majorLimit (Text.trim part)

/-- Whether the version starts with the components of `hint`, where empty
components of the hint do not count. -/
def matchesHint (v : RuntimeVersion) (hint : String) : Bool :=
  ((Text.split '.' hint).filter (!·.isEmpty)).isPrefixOf v.components

/-! ### Which versions will do -/

/-- The oldest first component that will do. -/
def oldestMajor : Nat := 4

/-- Refuse a version that is too old or that does not start with the hint, if
there is one. -/
def check (v : RuntimeVersion) (hint : Option String) : Except Error Unit :=
  if v.major?.all (· < oldestMajor) then
    .error (.incompatibleVersion v.text s!">= {oldestMajor}")
  else
    match hint with
    | none => .ok ()
    | some hint =>
      if v.matchesHint hint then .ok () else .error (.incompatibleVersion v.text hint)

end RuntimeVersion

end CilProbe
