/-
CilProbe/Signature/Read.lean

Reading types and signatures from their bytes.  Types nest; a reader is given
the number of levels it may still go down, and a function pointer takes two of
them, one for itself and one for its signature.  How the numbers and tokens in a
signature are read is a parameter (`Numerals`), so that a reader can be asked to
be stricter about them than `TypeSig.read` and `MethodSig.parse` are.
-/
import CilProbe.Bytes.Compressed
import CilProbe.Signature.TypeSig

namespace CilProbe

/-! ### Numbers and tokens -/

/-- How the numbers and tokens in a signature are read. -/
structure Numerals where
  /-- Reads a number. -/
  number : Reader Nat
  /-- Reads a token. -/
  token : Reader Token

/-- Numbers in any of their forms, and tokens of any row. -/
def Numerals.any : Numerals := ⟨Compressed.read, Compressed.readToken⟩

namespace TypeSig

/-! ### Bytes that start a type -/

/-- The codes of the types that need more than their code. -/
inductive Lead where
  | pointer
  | byRef
  | valueType
  | classType
  | typeVar
  | array
  | instance_
  | function
  | vector
  | methodVar
  | modified (required : Bool)
  | sentinel
  | pinned
  deriving DecidableEq, Repr

namespace Lead

/-- The byte. -/
def code : Lead → UInt8
  | pointer => 0x0F
  | byRef => 0x10
  | valueType => 0x11
  | classType => 0x12
  | typeVar => 0x13
  | array => 0x14
  | instance_ => 0x15
  | function => 0x1B
  | vector => 0x1D
  | methodVar => 0x1E
  | modified true => 0x1F
  | modified false => 0x20
  | sentinel => 0x41
  | pinned => 0x45

/-- All of them. -/
def all : List Lead :=
  [pointer, byRef, valueType, classType, typeVar, array, instance_, function, vector, methodVar,
    modified true, modified false, sentinel, pinned]

/-- What a byte announces. -/
def ofCode? (byte : UInt8) : Option Lead := all.find? fun l => l.code == byte

theorem ofCode?_code (l : Lead) : ofCode? l.code = some l := by
  rcases l with _ | _ | _ | _ | _ | _ | _ | _ | _ | _ | (_ | _) | _ | _ <;> rfl

end Lead

/-! ### Parts -/

/-- Levels that types may nest. -/
def nestingLimit : Nat := 64

/-- A count and that many numbers. -/
def readNumbers (k : Numerals) : Reader (List Nat) := do Reader.times (← k.number) k.number

/-- Whether the generic type is a value type. -/
def readInstanceKind : Reader Bool := do
  let byte ← Reader.byte
  if byte == Lead.classType.code then return false
  else if byte == Lead.valueType.code then return true
  else throw (.malformed (.genericKind byte))

/-- Types up to the one that makes the list hold `missing` more parameters,
after those in `done`, latest first.  Marks are read on the way and do not
count; as every type takes a byte, `fuel` need not exceed the bytes left. -/
def paramsAfter (read : Reader TypeSig) : Nat → Nat → List TypeSig → Reader (List TypeSig)
  | _, 0, done => pure done.reverse
  | 0, _ + 1, _ => throw .outOfBounds
  | fuel + 1, missing + 1, done => do
    let t ← read
    paramsAfter read fuel (if t.isSentinel then missing + 1 else missing) (t :: done)

/-- A parameter list of `count` parameters. -/
def readParams (read : Reader TypeSig) (count : Nat) : Reader (List TypeSig) := do
  paramsAfter read (← get).remaining count []

end TypeSig

/-- A method signature whose types are read by `read`. -/
def MethodSig.readWith (k : Numerals) (read : Reader TypeSig) : Reader MethodSig := do
  let convention ← Reader.byte
  if convention.toNat % kindRange = localsKind then throw (.malformed .localSignatureFound)
  let generics ← if hasMark convention genericMark then k.number else pure 0
  let count ← k.number
  let ret ← read
  let params ← TypeSig.readParams read count
  return ⟨convention, generics, ret, params⟩

namespace TypeSig

/-! ### Types -/

/-- What follows the byte that starts a type; `inner` reads the types in it and
`deeper` the types in a function's signature. -/
def readAfter (k : Numerals) (inner deeper : Reader TypeSig) : Lead → Reader TypeSig
  | .pointer => return .pointer (← inner)
  | .byRef => return .byRef (← inner)
  | .vector => return .vector (← inner)
  | .pinned => return .pinned (← inner)
  | .valueType => return .valueType (← k.token)
  | .classType => return .classType (← k.token)
  | .typeVar => return .typeVar (← k.number)
  | .methodVar => return .methodVar (← k.number)
  | .sentinel => return .sentinel
  | .array => do
    let element ← inner
    let rank ← k.number
    let sizes ← readNumbers k
    return .array element rank sizes (← readNumbers k)
  | .instance_ => do
    let isValueType ← readInstanceKind
    let generic ← k.token
    let count ← k.number
    return .instance_ isValueType generic (← Reader.times count inner)
  | .function => do
    let s ← MethodSig.readWith k deeper
    return .function s.convention s.generics s.ret s.params
  | .modified required => do
    let modifier ← k.token
    return .modified required modifier (← inner)

/-- A type that starts with `byte`. -/
def readFrom (k : Numerals) (inner deeper : Reader TypeSig) (byte : UInt8) : Reader TypeSig :=
  match Primitive.ofCode? byte with
  | some p => return .primitive p
  | none =>
    match Lead.ofCode? byte with
    | some lead => readAfter k inner deeper lead
    | none => throw (.malformed (.elementType byte))

/-- A type with at most `levels` levels. -/
def readLevels (k : Numerals) : Nat → Reader TypeSig
  | 0 => throw (.malformed (.nestingTooDeep nestingLimit))
  | 1 => do readFrom k (readLevels k 0) (readLevels k 0) (← Reader.byte)
  | levels + 2 => do readFrom k (readLevels k (levels + 1)) (readLevels k levels) (← Reader.byte)

/-- A type. -/
def read : Reader TypeSig := readLevels .any (nestingLimit + 1)

end TypeSig

/-! ### Method signatures -/

/-- The signature of a method. -/
def MethodSig.read : Reader MethodSig := readWith .any (TypeSig.readLevels .any TypeSig.nestingLimit)

/-- The signature of a method, read from the beginning of its bytes; bytes
behind it do not matter. -/
def MethodSig.parse (blob : List UInt8) : Except Error MethodSig := Reader.result MethodSig.read blob

end CilProbe
