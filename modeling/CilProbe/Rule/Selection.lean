/-
CilProbe/Rule/Selection.lean

Which rule applies to a method.  A rule is a list of constraints, the cheapest
first, and the first rule of a list whose constraints all hold is selected.
-/
import CilProbe.Metadata.View
import CilProbe.Rule.Basic

namespace CilProbe

/-! ### Methods as rules see them -/

/-- An assembly by name and version. -/
structure AssemblyIdentity where
  /-- Its name. -/
  name : String
  /-- Its version. -/
  version : AssemblyVersion
  deriving DecidableEq, Repr, Inhabited

/-- The assembly in one line. -/
def AssemblyIdentity.display (a : AssemblyIdentity) : String :=
  a.name ++ ", Version=" ++ a.version.display

/-- A type by name. -/
structure TypeDescriptor where
  /-- Its full name. -/
  name : String
  /-- Whether its values are references to objects. -/
  isReference : Bool
  deriving DecidableEq, Repr, Inhabited

/-- A method by the names of everything about it. -/
structure MethodDescriptor where
  /-- Full name of the type that declares it. -/
  typeName : String
  /-- Its own name. -/
  methodName : String
  /-- Its signature. -/
  signature : MethodSig
  /-- The type of its result. -/
  returnType : TypeDescriptor
  /-- The types in its parameter list. -/
  parameters : List TypeDescriptor
  /-- The assembly it is in. -/
  assembly : AssemblyIdentity

namespace MethodDescriptor

/-- A type with its name looked up. -/
def describe (names : TypeNames) (t : TypeSig) : Except Error TypeDescriptor := do
  return ⟨← t.name names, t.isReference⟩

/-- A method with all names looked up. -/
def resolve (metadata : MetadataView) (props : MethodProps) (assembly : AssemblyIdentity) :
    Except Error MethodDescriptor := do
  let signature ← MethodSig.parse props.signature
  let returnType ← describe metadata.typeName signature.ret
  let parameters ← signature.params.mapM (describe metadata.typeName)
  let typeName ← metadata.typeName props.typeToken
  return { typeName, methodName := props.name, signature, returnType, parameters, assembly }

/-- The method in one line. -/
def display (d : MethodDescriptor) : String :=
  d.returnType.name ++ " " ++ d.typeName ++ "::" ++ d.methodName ++ "(" ++
    ", ".intercalate (d.parameters.map TypeDescriptor.name) ++ ")"

end MethodDescriptor

/-- A method that rules are tried on. -/
structure MethodSubject where
  /-- Token of the type that declares it. -/
  typeToken : Token
  /-- Its own token. -/
  methodToken : Token
  /-- The names of everything about it. -/
  descriptor : MethodDescriptor
  /-- The type hierarchy, where it is known. -/
  hierarchy : Option TypeHierarchy

/-! ### Constraints -/

/-- The name of the class that every reference can stand for. -/
def objectTypeName : String := Primitive.object.name

/-- Whether a type does what a pattern asks. -/
def ParamPattern.accepts (hierarchy : Option TypeHierarchy) (actual : TypeDescriptor) :
    ParamPattern → Bool
  | .any => true
  | .exact name => name == actual.name
  | .assignableTo name =>
    name == actual.name || (name == objectTypeName && actual.isReference) ||
      hierarchy.any fun assignable => assignable actual.name name

/-- Whether types do what patterns ask, one by one. -/
def ParamPattern.acceptAll (hierarchy : Option TypeHierarchy) (patterns : List ParamPattern)
    (actual : List TypeDescriptor) : Bool :=
  patterns.length == actual.length &&
    (patterns.zip actual).all fun (pattern, type) => pattern.accepts hierarchy type

/-- One thing that a rule asks of a method. -/
inductive RuleConstraint where
  /-- To have certain tokens. -/
  | tokens (typeToken methodToken : Option Token)
  /-- To have a certain name. -/
  | method (pattern : NamePattern)
  /-- To be declared by a certain type. -/
  | type (pattern : NamePattern)
  /-- To be in a certain assembly. -/
  | assembly (name : String) (versions : VersionRange)
  /-- To have a certain signature. -/
  | signature (returnType : ParamPattern) (parameters : Option (List ParamPattern))
  deriving DecidableEq, Repr

namespace RuleConstraint

/-- Whether a method does what is asked. -/
def holds (s : MethodSubject) : RuleConstraint → Bool
  | .tokens typeToken methodToken =>
    typeToken.all (· == s.typeToken) && methodToken.all (· == s.methodToken)
  | .method pattern => pattern.matches_ s.descriptor.methodName
  | .type pattern => pattern.matches_ s.descriptor.typeName
  | .assembly name versions =>
    s.descriptor.assembly.name == name && versions.contains s.descriptor.assembly.version
  | .signature returnType parameters =>
    returnType.accepts s.hierarchy s.descriptor.returnType &&
      parameters.all fun patterns =>
        ParamPattern.acceptAll s.hierarchy patterns s.descriptor.parameters

/-- A token that may not be asked for. -/
def describeToken : Option Token → String
  | none => "None"
  | some t => "Some(" ++ t.describe ++ ")"

/-- The constraint in one line. -/
def description : RuleConstraint → String
  | .tokens typeToken methodToken =>
    "tokens " ++ describeToken typeToken ++ "/" ++ describeToken methodToken
  | .method pattern => "method " ++ pattern.source
  | .type pattern => "type " ++ pattern.source
  | .assembly name versions =>
    "assembly " ++ name ++ " [" ++ versions.low.display ++ ", " ++ versions.high.display ++ "]"
  | .signature returnType parameters =>
    let list :=
      match parameters with
      | some patterns => ", ".intercalate (patterns.map ParamPattern.display)
      | none => ".."
    "signature " ++ returnType.display ++ " (" ++ list ++ ")"

end RuleConstraint

/-! ### Rules -/

namespace Rule

/-- What the rule asks of a method, the cheapest constraint first; tokens and
signature are left out where the rule does not mention them. -/
def constraints (r : Rule) : List RuleConstraint :=
  (if r.typeToken.isSome || r.methodToken.isSome then
    [.tokens r.typeToken r.methodToken] else []) ++
  [.method r.methodPattern, .type r.typePattern, .assembly r.assembly r.versions] ++
  (if r.returnType != .any || r.parameters.isSome then
    [.signature r.returnType r.parameters] else [])

/-- Whether the rule applies to a method. -/
def matches_ (r : Rule) (s : MethodSubject) : Bool := r.constraints.all fun c => c.holds s

/-- The first rule that applies to a method. -/
def select (rules : List Rule) (s : MethodSubject) : Option Rule := rules.find? (·.matches_ s)

end Rule

end CilProbe
