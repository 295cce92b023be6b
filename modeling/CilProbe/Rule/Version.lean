/-
CilProbe/Rule/Version.lean

Assembly versions of four components, and ranges of them.  A bound may leave
components open, by a star or by leaving them out; an open component is the
smallest there is in a lower bound and the largest in an upper one.
-/
import CilProbe.Error
import CilProbe.Text.Blank

namespace CilProbe

/-! ### Versions -/

/-- A version of an assembly. -/
structure AssemblyVersion where
  /-- First component. -/
  major : UInt16
  /-- Second component. -/
  minor : UInt16
  /-- Third component. -/
  build : UInt16
  /-- Fourth component. -/
  revision : UInt16
  deriving DecidableEq, Repr, Inhabited

namespace AssemblyVersion

/-- The largest value of a component. -/
def componentLimit : Nat := 65535

/-- The components, most significant first. -/
def components (v : AssemblyVersion) : List UInt16 := [v.major, v.minor, v.build, v.revision]

/-- Whether the first list of components comes before the second or is the
same, where the first difference decides. -/
def componentsLe : List UInt16 → List UInt16 → Bool
  | [], _ => true
  | _ :: _, [] => false
  | a :: as, b :: bs => a < b || (a == b && componentsLe as bs)

/-- Whether the first version comes before the second or is the same. -/
def le (a b : AssemblyVersion) : Bool := componentsLe a.components b.components

/-- The components with points between them. -/
def display (v : AssemblyVersion) : String :=
  ".".intercalate (v.components.map fun c => toString c.toNat)

/-! ### Reading -/

/-- One component of a bound, where a star stands for `open_`. -/
def readComponent? (open_ : UInt16) (part : String) : Option UInt16 :=
  if part = "*" then some open_
  else (Text.readDecimal? componentLimit part).map UInt16.ofNat

/-- The version with the given components, where missing ones are `open_`; four
components are the most there are. -/
def ofComponents? (open_ : UInt16) : List UInt16 → Option AssemblyVersion
  | [a] => some ⟨a, open_, open_, open_⟩
  | [a, b] => some ⟨a, b, open_, open_⟩
  | [a, b, c] => some ⟨a, b, c, open_⟩
  | [a, b, c, d] => some ⟨a, b, c, d⟩
  | _ => none

/-- Read a bound whose open components are `open_`. -/
def readBound (open_ : UInt16) (text : String) : Except Error AssemblyVersion :=
  let version := do
    let parts ← (Text.split '.' (Text.trim text)).mapM (readComponent? open_)
    ofComponents? open_ parts
  match version with
  | some v => .ok v
  | none => .error (.invalidConfig "version" text)

/-- Read a version; open components are zero. -/
def parse (text : String) : Except Error AssemblyVersion := readBound 0 text

end AssemblyVersion

/-! ### Ranges -/

/-- A range of versions, both ends included. -/
structure VersionRange where
  /-- The first version in the range. -/
  low : AssemblyVersion
  /-- The last one. -/
  high : AssemblyVersion
  deriving DecidableEq, Repr, Inhabited

namespace VersionRange

/-- Every version. -/
def any : VersionRange := ⟨⟨0, 0, 0, 0⟩, ⟨65535, 65535, 65535, 65535⟩⟩

/-- Read the two bounds of a range. -/
def parse (low high : String) : Except Error VersionRange := do
  let low ← AssemblyVersion.readBound 0 low
  let high ← AssemblyVersion.readBound 65535 high
  return ⟨low, high⟩

/-- Whether a version lies in the range. -/
def contains (r : VersionRange) (v : AssemblyVersion) : Bool := r.low.le v && v.le r.high

end VersionRange

end CilProbe
