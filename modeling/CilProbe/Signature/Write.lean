/-
CilProbe/Signature/Write.lean

Writing types and signatures as bytes.  Numbers are written in their shortest
form; a number too large for any form, or a token outside the type tables,
stops the writing where it occurs.
-/
import CilProbe.Bytes.Written
import CilProbe.Signature.Read

namespace CilProbe

/-- A number in its compressed form. -/
def Written.number (n : Nat) : Written := .ofExcept (Compressed.encode n)

/-- How many there are of something; counts are kept in a 32-bit word. -/
def Written.count (n : Nat) : Written := .number (n % 0x100000000)

/-- A token in its coded form. -/
def Written.token (t : Token) : Written := .ofExcept (Compressed.encodeToken t)

/-- A count and the numbers it counts. -/
def Written.numbers (ns : List Nat) : Written :=
  .count ns.length ++ ns.foldr (fun n rest => .number n ++ rest) (.ok [])

namespace TypeSig

mutual

/-- The bytes of a type. -/
def write : TypeSig → Written
  | .primitive p => .ok [p.code]
  | .sentinel => .ok [Lead.sentinel.code]
  | .classType t => .ok [Lead.classType.code] ++ .token t
  | .valueType t => .ok [Lead.valueType.code] ++ .token t
  | .typeVar n => .ok [Lead.typeVar.code] ++ .number n
  | .methodVar n => .ok [Lead.methodVar.code] ++ .number n
  | .pointer t => .ok [Lead.pointer.code] ++ write t
  | .byRef t => .ok [Lead.byRef.code] ++ write t
  | .vector t => .ok [Lead.vector.code] ++ write t
  | .pinned t => .ok [Lead.pinned.code] ++ write t
  | .array element rank sizes lowerBounds =>
    .ok [Lead.array.code] ++ write element ++ .number rank ++ .numbers sizes ++
      .numbers lowerBounds
  | .instance_ isValueType generic args =>
    .ok [Lead.instance_.code, if isValueType then Lead.valueType.code else Lead.classType.code] ++
      .token generic ++ .count args.length ++ writeAll args
  | .function convention generics ret params =>
    .ok [Lead.function.code, convention] ++
      (if MethodSig.hasMark convention MethodSig.genericMark then .number generics else .ok []) ++
      .count (countParams params) ++ write ret ++ writeAll params
  | .modified required modifier inner =>
    .ok [(Lead.modified required).code] ++ .token modifier ++ write inner

/-- The bytes of types one after the other. -/
def writeAll : List TypeSig → Written
  | [] => .ok []
  | t :: ts => write t ++ writeAll ts

end

end TypeSig

/-- The bytes of a method signature; generic parameters are counted only where
the convention says that there are some. -/
def MethodSig.write (s : MethodSig) : Written :=
  .ok [s.convention] ++
    (if hasMark s.convention genericMark then .number s.generics else .ok []) ++
    .count s.arity ++ s.ret.write ++ TypeSig.writeAll s.params

/-- The bytes of a method signature, if it can be written. -/
def MethodSig.encode (s : MethodSig) : Except Error (List UInt8) := s.write.toExcept

/-- The bytes of a type, if it can be written. -/
def TypeSig.encode (t : TypeSig) : Except Error (List UInt8) := t.write.toExcept

end CilProbe
