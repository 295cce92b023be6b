/-
CilProbe/Signature/Name.lean

Full names of types, as rules and descriptions spell them.  Classes and value
types are named by whoever knows the metadata; everything else is spelled from
the parts.
-/
import CilProbe.Error
import CilProbe.Signature.TypeSig

namespace CilProbe

/-- Names the type of a token. -/
abbrev TypeNames := Token → Except Error String

namespace TypeSig

mutual

/-- The full name of a type.  The names of a generic type's arguments are
looked up before its own. -/
def name (names : TypeNames) : TypeSig → Except Error String
  | .primitive p => .ok p.name
  | .sentinel => .ok "..."
  | .classType t | .valueType t => names t
  | .typeVar n => .ok s!"!{n}"
  | .methodVar n => .ok s!"!!{n}"
  | .pointer t => return (← name names t) ++ "*"
  | .byRef t => return (← name names t) ++ "&"
  | .vector t => return (← name names t) ++ "[]"
  | .array element rank _ _ => do
    let commas := String.ofList (List.replicate (rank - 1) ',')
    return (← name names element) ++ "[" ++ commas ++ "]"
  | .instance_ _ generic args => do
    let argNames ← nameAll names args
    return (← names generic) ++ "[" ++ ",".intercalate argNames ++ "]"
  | .function .. => .ok "method*"
  | .modified _ _ inner | .pinned inner => name names inner

/-- The full names of types. -/
def nameAll (names : TypeNames) : List TypeSig → Except Error (List String)
  | [] => .ok []
  | t :: ts => do
    let first ← name names t
    return first :: (← nameAll names ts)

end

end TypeSig

end CilProbe
