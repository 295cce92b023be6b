/-
CilProbe/Rule/Basic.lean

Instrumentation rules.  A rule belongs to an integration and says which methods
of which assembly are meant, what to inject, and which helper to call.  Rules
are built from what their author wrote, and building checks it.
-/
import CilProbe.Probe.Request
import CilProbe.Rule.NamePattern
import CilProbe.Rule.Version

namespace CilProbe

/-! ### Types of parameters -/

/-- What a rule asks of the type of a parameter or of the result. -/
inductive ParamPattern where
  /-- Nothing. -/
  | any
  /-- To be the type of that name. -/
  | exact (name : String)
  /-- To be a type that can stand where one of that name is asked for. -/
  | assignableTo (name : String)
  deriving DecidableEq, Repr, Inhabited

namespace ParamPattern

/-- Read what a rule's author wrote: nothing or an underscore asks for nothing,
and a plus sign makes the name one to be assignable to. -/
def parse (text : String) : ParamPattern :=
  match Text.trimChars text.toList with
  | [] | ['_'] => .any
  | '+' :: name => .assignableTo (String.ofList name)
  | name => .exact (String.ofList name)

/-- The pattern as a rule's author would write it. -/
def display : ParamPattern → String
  | .any => "_"
  | .exact name => name
  | .assignableTo name => "+" ++ name

end ParamPattern

/-! ### Helpers -/

/-- The helper that the probes call. -/
structure HelperRef where
  /-- The assembly it is in. -/
  assembly : String
  /-- The full name of its type. -/
  typeName : String
  /-- The method called at entry. -/
  enterMethod : String := "OnMethodBegin"
  /-- The method called at exit. -/
  exitMethod : String := "OnMethodEnd"
  deriving DecidableEq, Repr, Inhabited

/-! ### Rules -/

/-- A rule that can be used. -/
structure Rule where
  /-- The integration it belongs to. -/
  integration : String
  /-- The assembly whose methods are meant. -/
  assembly : String
  /-- The versions of the assembly that are meant. -/
  versions : VersionRange
  /-- The types that are meant. -/
  typePattern : NamePattern
  /-- The methods that are meant. -/
  methodPattern : NamePattern
  /-- The type of the result. -/
  returnType : ParamPattern
  /-- The types of the parameters; with none given, any parameters will do. -/
  parameters : Option (List ParamPattern)
  /-- The one type that is meant. -/
  typeToken : Option Token
  /-- The one method that is meant. -/
  methodToken : Option Token
  /-- What the probes call. -/
  helper : HelperRef
  /-- What to inject. -/
  policy : Policy
  deriving DecidableEq, Repr, Inhabited

/-- The rule in one line. -/
def Rule.display (r : Rule) : String :=
  r.integration ++ ": [" ++ r.assembly ++ "] " ++ r.typePattern.source ++ "::" ++
    r.methodPattern.source

/-! ### Building -/

/-- What the author of a rule wrote. -/
structure RuleSpec where
  /-- The integration it belongs to. -/
  integration : String
  /-- The assembly, with the lower and the upper bound of its versions. -/
  assembly : Option (String × String × String) := none
  /-- Pattern for the type. -/
  typePattern : Option String := none
  /-- Pattern for the method. -/
  methodPattern : Option String := none
  /-- The type of the result. -/
  returnType : ParamPattern := .any
  /-- The types of the parameters. -/
  parameters : Option (List ParamPattern) := none
  /-- The one type that is meant. -/
  typeToken : Option Token := none
  /-- The one method that is meant. -/
  methodToken : Option Token := none
  /-- What the probes call. -/
  helper : Option HelperRef := none
  /-- What to inject. -/
  policy : Policy := .full

namespace RuleSpec

/-- Whether a text says nothing. -/
def isBlank (text : String) : Bool := (Text.trimChars text.toList).isEmpty

/-- Refuse the rule. -/
def refuse {α : Type} (s : RuleSpec) (flaw : RuleFlaw) : Except Error α :=
  .error (.invalidRule s.integration flaw)

/-- The assembly and the versions that are meant. -/
def buildAssembly (s : RuleSpec) : Except Error (String × VersionRange) :=
  match s.assembly with
  | none => s.refuse .missingAssembly
  | some (name, low, high) =>
    if isBlank name then s.refuse .emptyAssembly
    else
      match VersionRange.parse low high with
      | .error _ => s.refuse (.versionRange low high)
      | .ok versions =>
        if versions.low.le versions.high then .ok (name, versions) else s.refuse .versionOrder

/-- A pattern, with the flaws of one that is missing and one that is empty. -/
def buildPattern (s : RuleSpec) (missing empty : RuleFlaw) :
    Option String → Except Error NamePattern
  | none => s.refuse missing
  | some text =>
    match NamePattern.parse text with
    | .ok p => .ok p
    | .error _ => s.refuse empty

/-- What the probes call. -/
def buildHelper (s : RuleSpec) : Except Error HelperRef :=
  match s.helper with
  | none => s.refuse .missingHelper
  | some h =>
    if h.assembly.isEmpty || h.typeName.isEmpty || h.enterMethod.isEmpty || h.exitMethod.isEmpty then
      s.refuse .incompleteHelper
    else .ok h

/-- What to inject: entry is always observed, and exceptions only with
exits. -/
def buildPolicy (s : RuleSpec) : Except Error Policy :=
  if !s.policy.entry then s.refuse .policyWithoutEntry
  else if s.policy.exception && !s.policy.exit then s.refuse .exceptionWithoutExit
  else .ok s.policy

/-- Build the rule. -/
def build (s : RuleSpec) : Except Error Rule := do
  if isBlank s.integration then s.refuse .emptyIntegration
  let (assembly, versions) ← s.buildAssembly
  let typePattern ← s.buildPattern .missingTypePattern .emptyTypePattern s.typePattern
  let methodPattern ← s.buildPattern .missingMethodPattern .emptyMethodPattern s.methodPattern
  let helper ← s.buildHelper
  let policy ← s.buildPolicy
  return { integration := s.integration, assembly, versions, typePattern, methodPattern,
           returnType := s.returnType, parameters := s.parameters, typeToken := s.typeToken,
           methodToken := s.methodToken, helper, policy }

end RuleSpec

end CilProbe
