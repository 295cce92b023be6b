/-
CilProbe/Probe/Request.lean

What is asked for when a method is instrumented, who supplies the tokens the
injected code refers to, and what comes out.

The entry probe calls a helper with the method's token and keeps the number it
answers with.  The exit probe wraps the code so that a second helper is called
on every way out, with the value returned, the exception that passed if those
are observed, and the number kept at entry.
-/
import CilProbe.Body.Clause
import CilProbe.Error
import CilProbe.Signature.TypeSig

namespace CilProbe

/-! ### Policies -/

/-- Which probes to inject. -/
structure Policy where
  /-- Call a helper at the method's entry. -/
  entry : Bool
  /-- Call a helper on every way out. -/
  exit : Bool
  /-- Hand the exit helper the exception that passed. -/
  exception : Bool
  deriving DecidableEq, Repr, Inhabited

namespace Policy

/-- The policy as a number, one bit a probe. -/
def toNat (p : Policy) : Nat := p.entry.toNat + 2 * p.exit.toNat + 4 * p.exception.toNat

/-- The policy in the low three bits of a number. -/
def ofNat (n : Nat) : Policy := ⟨n % 2 == 1, n / 2 % 2 == 1, n / 4 % 2 == 1⟩

/-- All probes. -/
def full : Policy := ⟨true, true, true⟩

end Policy

/-! ### Requests -/

/-- A method to be instrumented. -/
structure ProbeRequest where
  /-- The method's token, which the entry helper is called with. -/
  method : Token
  /-- The bytes of its body. -/
  body : List UInt8
  /-- Its signature. -/
  signature : MethodSig
  /-- The bytes of the signature of its locals; none if it has no locals. -/
  locals : List UInt8
  /-- Whether it constructs an instance. -/
  isConstructor : Bool
  /-- What to inject. -/
  policy : Policy

/-- Who supplies tokens.  Tokens may be made on demand, which may fail and may
have effects of its own. -/
structure TokenSource (m : Type → Type) where
  /-- The entry helper. -/
  enter : ExceptT Error m Token
  /-- The exit helper for a type returned, or for none. -/
  exit : Option TypeSig → ExceptT Error m Token
  /-- The class of all exceptions. -/
  exceptionType : ExceptT Error m Token
  /-- A signature of locals. -/
  localSignature : List UInt8 → ExceptT Error m Token

/-! ### Results -/

/-- An instrumented method. -/
structure ProbedMethod where
  /-- The bytes of the new body. -/
  body : List UInt8
  /-- New position of every instruction the method had, in code order. -/
  offsetMap : List (Offset × Offset)
  /-- The signature of the locals. -/
  localsToken : Token
  /-- Declared stack depth. -/
  maxStack : UInt16
  /-- Passes the layout took. -/
  layoutPasses : Nat
  deriving DecidableEq, Repr

/-- What came of a request. -/
inductive ProbeOutcome where
  /-- The method is instrumented now. -/
  | probed (result : ProbedMethod)
  /-- It had been instrumented already. -/
  | alreadyProbed
  deriving DecidableEq, Repr

end CilProbe
