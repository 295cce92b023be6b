/-
CilProbe/Body/Clause.lean

Exception clauses.  A clause protects a range of code and names the range that
handles what happens there; both ranges are half open.  A filter clause also
has a block of code, from the filter's position up to the handler, that decides
whether the handler runs.
-/
import CilProbe.Cil.Offset
import CilProbe.Token

namespace CilProbe

/-! ### Kinds of clauses -/

/-- What kind of clause it is, as the three marks a table can hold; a clause
without any mark catches exceptions of a class. -/
structure ClauseFlags where
  /-- The handler runs if a block of code says so. -/
  filter : Bool
  /-- The handler runs on every way out. -/
  finally_ : Bool
  /-- The handler runs when an exception passes. -/
  fault : Bool
  deriving DecidableEq, Repr, Inhabited

namespace ClauseFlags

/-- Catches exceptions of a class. -/
def catch_ : ClauseFlags := ⟨false, false, false⟩

/-- Runs on every way out. -/
def finallyOnly : ClauseFlags := ⟨false, true, false⟩

/-- The marks as a number. -/
def toNat (f : ClauseFlags) : Nat :=
  f.filter.toNat + 2 * f.finally_.toNat + 4 * f.fault.toNat

/-- The marks in the low three bits of a number. -/
def ofNat (n : Nat) : ClauseFlags := ⟨n % 2 == 1, n / 2 % 2 == 1, n / 4 % 2 == 1⟩

theorem ofNat_toNat (f : ClauseFlags) : ofNat f.toNat = f := by
  rcases f with ⟨_ | _, _ | _, _ | _⟩ <;> rfl

theorem toNat_lt (f : ClauseFlags) : f.toNat < 8 := by
  rcases f with ⟨_ | _, _ | _, _ | _⟩ <;> decide

end ClauseFlags

/-! ### Clauses -/

/-- One exception clause. -/
structure Clause where
  /-- Kind of clause. -/
  flags : ClauseFlags
  /-- Where the protected range starts. -/
  tryOffset : Offset
  /-- Bytes of the protected range. -/
  tryLength : UInt32
  /-- Where the handler starts. -/
  handlerOffset : Offset
  /-- Bytes of the handler. -/
  handlerLength : UInt32
  /-- The class caught, or the position of the filter. -/
  classOrFilter : UInt32
  deriving DecidableEq, Repr, Inhabited

namespace Clause

/-- A clause whose handler runs on every way out. -/
def finally_ (tryOffset : Offset) (tryLength : UInt32) (handlerOffset : Offset)
    (handlerLength : UInt32) : Clause :=
  ⟨.finallyOnly, tryOffset, tryLength, handlerOffset, handlerLength, 0⟩

/-- A clause that catches exceptions of `type`. -/
def catch_ (tryOffset : Offset) (tryLength : UInt32) (handlerOffset : Offset)
    (handlerLength : UInt32) (type : Token) : Clause :=
  ⟨.catch_, tryOffset, tryLength, handlerOffset, handlerLength, type.value⟩

/-- Whether code decides if the handler runs. -/
def isFilter (c : Clause) : Bool := c.flags.filter

/-- Whether the handler is entered without an exception on the stack. -/
def isFinallyLike (c : Clause) : Bool := c.flags.finally_ || c.flags.fault

/-- The class that the clause catches. -/
def classToken? (c : Clause) : Option Token :=
  if c.flags = .catch_ then some ⟨c.classOrFilter⟩ else none

/-- Where the filter starts. -/
def filterOffset? (c : Clause) : Option Offset :=
  if c.isFilter then some c.classOrFilter else none

/-! ### Ranges -/

/-- The position after the protected range. -/
def tryEnd (c : Clause) : Offset := c.tryOffset.after c.tryLength.toNat

/-- The position after the handler. -/
def handlerEnd (c : Clause) : Offset := c.handlerOffset.after c.handlerLength.toNat

/-- Where the code of the handler starts, the filter included. -/
def handlerStart (c : Clause) : Offset := c.filterOffset?.getD c.handlerOffset

/-- Whether `offset` is protected. -/
def tryContains (c : Clause) (offset : Offset) : Bool :=
  c.tryOffset ≤ offset && offset < c.tryEnd

/-- Whether `offset` lies in the handler or in its filter. -/
def handlerContains (c : Clause) (offset : Offset) : Bool :=
  (c.handlerOffset ≤ offset && offset < c.handlerEnd) ||
    match c.filterOffset? with
    | some start => start ≤ offset && offset < c.handlerOffset
    | none => false

/-- Whether the small table format has room for the numbers of the clause. -/
def fitsSmall (c : Clause) : Bool :=
  c.tryOffset.toNat ≤ 0xFFFF && c.tryLength.toNat ≤ 0xFF && c.handlerOffset.toNat ≤ 0xFFFF &&
    c.handlerLength.toNat ≤ 0xFF

end Clause

end CilProbe
