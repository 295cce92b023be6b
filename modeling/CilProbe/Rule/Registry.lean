/-
CilProbe/Rule/Registry.lean

All rules of an engine, indexed so that most methods are passed over without
looking at any rule: candidates are found by the name of the assembly, and a
method whose name no rule mentions cannot match unless some rule has a wildcard
there.
-/
import Std.Data.HashMap
import Std.Data.HashSet
import CilProbe.Rule.Selection

namespace CilProbe

/-- The rules of an engine with their indexes. -/
structure Registry where
  /-- All rules in use, in order. -/
  rules : List Rule
  /-- The rules about each assembly, in order. -/
  byAssembly : Std.HashMap String (List Rule)
  /-- The method names that rules mention literally. -/
  methodNames : Std.HashSet String
  /-- Whether some rule has a wildcard for the method name. -/
  hasWildcards : Bool

namespace Registry

/-- The registry without rules. -/
def empty : Registry := ⟨[], ∅, ∅, false⟩

/-! ### Building -/

/-- Refuse a rule that no longer says what it must. -/
def validate (r : Rule) : Except Error Unit :=
  if RuleSpec.isBlank r.integration then .error (.invalidRule r.integration .emptyIntegration)
  else if RuleSpec.isBlank r.assembly then .error (.invalidRule r.integration .emptyAssembly)
  else if r.helper.assembly.isEmpty || r.helper.typeName.isEmpty then
    .error (.invalidRule r.integration .missingHelper)
  else .ok ()

/-- Whether the integration of a rule is among the disabled names, where the
case of ASCII letters does not matter. -/
def isDisabled (disabled : List String) (r : Rule) : Bool :=
  disabled.any fun name => Text.foldCase name == Text.foldCase r.integration

/-- The registry with one more rule. -/
def add (g : Registry) (r : Rule) : Registry :=
  let literal := r.methodPattern.isLiteral
  { rules := g.rules ++ [r]
    byAssembly := g.byAssembly.insert r.assembly (g.byAssembly.getD r.assembly [] ++ [r])
    methodNames := if literal then g.methodNames.insert r.methodPattern.source else g.methodNames
    hasWildcards := g.hasWildcards || !literal }

/-- The registry of those rules whose integration is not disabled. -/
def ofRules (rules : List Rule) (disabled : List String) : Except Error Registry :=
  rules.foldlM (fun g r => do
    validate r
    return if isDisabled disabled r then g else g.add r) empty

/-! ### Looking rules up -/

/-- The rules that are about an assembly of the given version, in order. -/
def candidatesFor (g : Registry) (assembly : AssemblyIdentity) : List Rule :=
  let rules := g.byAssembly.getD assembly.name []
  let applies (r : Rule) := r.versions.contains assembly.version
  if rules.all applies then rules else rules.filter applies

/-- Whether some candidate might match a method of the given name; if not, none
does. -/
def mightMatch (g : Registry) (candidates : List Rule) (name : String) : Bool :=
  !candidates.isEmpty &&
    (g.methodNames.contains name ||
      (g.hasWildcards && candidates.any fun r => r.methodPattern.matches_ name))

end Registry

end CilProbe
