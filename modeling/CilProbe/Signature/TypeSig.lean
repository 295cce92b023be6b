/-
CilProbe/Signature/TypeSig.lean

Types and method signatures as signatures spell them: types refer to metadata
rows by token and to generic parameters by number, and a parameter list may
hold the mark after which the arguments of a variable argument list begin.
-/
import CilProbe.Token

namespace CilProbe

/-! ### Types that need one byte -/

/-- A type that is spelled by its code alone. -/
inductive Primitive where
  | void
  | boolean
  | char
  | i1
  | u1
  | i2
  | u2
  | i4
  | u4
  | i8
  | u8
  | r4
  | r8
  | string
  | object
  | i
  | u
  | typedByRef
  deriving DecidableEq, Repr

namespace Primitive

/-- All primitive types. -/
def all : List Primitive :=
  [void, boolean, char, i1, u1, i2, u2, i4, u4, i8, u8, r4, r8, string, object, i, u, typedByRef]

/-- The byte that spells the type. -/
def code : Primitive → UInt8
  | void => 0x01
  | boolean => 0x02
  | char => 0x03
  | i1 => 0x04
  | u1 => 0x05
  | i2 => 0x06
  | u2 => 0x07
  | i4 => 0x08
  | u4 => 0x09
  | i8 => 0x0A
  | u8 => 0x0B
  | r4 => 0x0C
  | r8 => 0x0D
  | string => 0x0E
  | object => 0x1C
  | i => 0x18
  | u => 0x19
  | typedByRef => 0x16

/-- The type that a byte spells. -/
def ofCode? (byte : UInt8) : Option Primitive := all.find? fun p => p.code == byte

/-- The full name of the type. -/
def name : Primitive → String
  | void => "System.Void"
  | boolean => "System.Boolean"
  | char => "System.Char"
  | i1 => "System.SByte"
  | u1 => "System.Byte"
  | i2 => "System.Int16"
  | u2 => "System.UInt16"
  | i4 => "System.Int32"
  | u4 => "System.UInt32"
  | i8 => "System.Int64"
  | u8 => "System.UInt64"
  | r4 => "System.Single"
  | r8 => "System.Double"
  | string => "System.String"
  | object => "System.Object"
  | i => "System.IntPtr"
  | u => "System.UIntPtr"
  | typedByRef => "System.TypedReference"

theorem ofCode?_code (p : Primitive) : ofCode? p.code = some p := by
  cases p <;> rfl

end Primitive

/-! ### Types -/

/-- A type in a signature. -/
inductive TypeSig where
  /-- A type that is spelled by its code alone. -/
  | primitive (type : Primitive)
  /-- A class or interface. -/
  | classType (token : Token)
  /-- A structure or enumeration. -/
  | valueType (token : Token)
  /-- A generic parameter of the type. -/
  | typeVar (index : Nat)
  /-- A generic parameter of the method. -/
  | methodVar (index : Nat)
  /-- A pointer. -/
  | pointer (target : TypeSig)
  /-- A reference to a place. -/
  | byRef (target : TypeSig)
  /-- A one-dimensional array that counts from zero. -/
  | vector (element : TypeSig)
  /-- An array of any shape. -/
  | array (element : TypeSig) (rank : Nat) (sizes lowerBounds : List Nat)
  /-- A generic type with its arguments. -/
  | instance_ (isValueType : Bool) (generic : Token) (args : List TypeSig)
  /-- A pointer to a function, given by the parts of its signature. -/
  | function (convention : UInt8) (generics : Nat) (ret : TypeSig) (params : List TypeSig)
  /-- A type with a modifier. -/
  | modified (required : Bool) (modifier : Token) (inner : TypeSig)
  /-- A local that is not moved. -/
  | pinned (inner : TypeSig)
  /-- The mark before the arguments of a variable argument list. -/
  | sentinel
  deriving Repr, BEq, Inhabited

/-- The signature of a method. -/
structure MethodSig where
  /-- Calling convention: a kind in the low four bits, marks in the others. -/
  convention : UInt8
  /-- Generic parameters. -/
  generics : Nat
  /-- Type returned. -/
  ret : TypeSig
  /-- Types of the parameters, with the mark of a variable argument list. -/
  params : List TypeSig
  deriving Repr, BEq, Inhabited

namespace TypeSig

/-! ### Questions about types -/

/-- The type without modifiers around it. -/
def unmodified : TypeSig → TypeSig
  | .modified _ _ inner => inner.unmodified
  | .pinned inner => inner.unmodified
  | t => t

/-- Whether this is the mark of a variable argument list. -/
def isSentinel : TypeSig → Bool
  | .sentinel => true
  | _ => false

/-- Whether nothing is returned. -/
def isVoid (t : TypeSig) : Bool :=
  match t.unmodified with
  | .primitive .void => true
  | _ => false

/-- Whether values of the type are references to objects. -/
def isReference (t : TypeSig) : Bool :=
  match t.unmodified with
  | .primitive .string | .primitive .object | .classType _ | .vector _ | .array .. => true
  | .instance_ isValueType _ _ => !isValueType
  | _ => false

/-- Whether the type refers to a place, in either of the two ways there are. -/
def isByRefLike (t : TypeSig) : Bool :=
  match t.unmodified with
  | .byRef _ | .primitive .typedByRef => true
  | _ => false

mutual

/-- Whether a generic parameter occurs in the type. -/
def isOpen : TypeSig → Bool
  | .typeVar _ | .methodVar _ => true
  | .pointer t | .byRef t | .vector t | .pinned t => isOpen t
  | .array element _ _ _ => isOpen element
  | .modified _ _ inner => isOpen inner
  | .instance_ _ _ args => anyOpen args
  | .function _ _ ret params => isOpen ret || anyOpen params
  | _ => false

/-- Whether a generic parameter occurs in one of the types. -/
def anyOpen : List TypeSig → Bool
  | [] => false
  | t :: ts => isOpen t || anyOpen ts

end

/-- How many of the types are parameters, the mark of a variable argument list
not being one. -/
def countParams (params : List TypeSig) : Nat := params.countP fun t => !t.isSentinel

end TypeSig

namespace MethodSig

/-! ### Conventions -/

/-- Bits of the convention that hold its kind. -/
def kindRange : Nat := 16

/-- The kind that marks a signature of locals. -/
def localsKind : Nat := 7

/-- The mark of a method with generic parameters. -/
def genericMark : Nat := 0x10

/-- The mark of a method called on an instance. -/
def thisMark : Nat := 0x20

/-- The mark of an instance that is listed among the parameters. -/
def explicitThisMark : Nat := 0x40

/-- Whether a mark of the convention is set. -/
def hasMark (convention : UInt8) (mark : Nat) : Bool := convention.toNat / mark % 2 == 1

/-! ### Questions about signatures -/

/-- A static method without generic parameters. -/
def static (ret : TypeSig) (params : List TypeSig) : MethodSig := ⟨0, 0, ret, params⟩

/-- Whether an instance is passed that the parameters do not list. -/
def hasThis (s : MethodSig) : Bool :=
  hasMark s.convention thisMark && !hasMark s.convention explicitThisMark

/-- Number of parameters. -/
def arity (s : MethodSig) : Nat := TypeSig.countParams s.params

/-- Values that a call takes from the stack. -/
def stackPops (s : MethodSig) : Nat := s.arity + s.hasThis.toNat

end MethodSig

end CilProbe
