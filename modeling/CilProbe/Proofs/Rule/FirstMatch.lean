/-
CilProbe/Proofs/Rule/FirstMatch.lean

Looking a rule up is the same as going through all of them.  A registry finds the rules for
an assembly by an index, passes a method over if no rule can be about its name, and tries
the constraints of a rule cheapest first; `Registry.lookUp` puts these together.  What a rule
says about a method is `Rule.Applies`, and `lookUp_eq_find?` says that the first rule in use
that applies is what is found.  The indexes are what the rules make them, of which `Indexed`
is the invariant while rules are added.
-/
import CilProbe.Rule.Registry
import Mathlib.Data.List.Forall2

namespace CilProbe

/-! ### What rules say -/

/-- Versions are ordered by their first difference. -/
theorem AssemblyVersion.componentsLe_iff (as bs : List UInt16) :
    componentsLe as bs = true ↔ as ≤ bs := by
  induction as generalizing bs with
  | nil => exact iff_of_true rfl (List.nil_le bs)
  | cons a as ih =>
    cases bs with
    | nil => exact iff_of_false Bool.false_ne_true fun h => h (List.nil_lt_cons a as)
    | cons b bs =>
      rw [List.cons_le_cons_iff, ← ih]
      simp [componentsLe]

/-- A range holds the versions from its first to its last. -/
theorem VersionRange.contains_iff (r : VersionRange) (v : AssemblyVersion) :
    r.contains v = true ↔
      r.low.components ≤ v.components ∧ v.components ≤ r.high.components := by
  unfold contains AssemblyVersion.le
  rw [Bool.and_eq_true, AssemblyVersion.componentsLe_iff, AssemblyVersion.componentsLe_iff]

/-- What a pattern says about a type. -/
def ParamPattern.Admits (hierarchy : Option TypeHierarchy) :
    ParamPattern → TypeDescriptor → Prop
  | .any, _ => True
  | .exact name, type => type.name = name
  | .assignableTo name, type =>
    type.name = name ∨ name = objectTypeName ∧ type.isReference = true ∨
      ∃ assignable ∈ hierarchy, assignable type.name name = true

theorem ParamPattern.accepts_iff (hierarchy : Option TypeHierarchy) (type : TypeDescriptor)
    (pattern : ParamPattern) :
    pattern.accepts hierarchy type = true ↔ pattern.Admits hierarchy type := by
  cases pattern with
  | any => exact iff_of_true rfl trivial
  | exact name => exact beq_iff_eq.trans eq_comm
  | assignableTo name =>
    simp only [accepts, Admits, Bool.or_eq_true, Bool.and_eq_true, beq_iff_eq, Option.any_eq_true,
      or_assoc]
    rw [eq_comm]
    rfl

theorem ParamPattern.acceptAll_iff (hierarchy : Option TypeHierarchy)
    (patterns : List ParamPattern) (types : List TypeDescriptor) :
    acceptAll hierarchy patterns types = true ↔
      List.Forall₂ (Admits hierarchy) patterns types := by
  unfold acceptAll
  rw [List.forall₂_iff_zip, Bool.and_eq_true, beq_iff_eq, List.all_eq_true]
  refine and_congr_right fun _ => ⟨fun h pattern type hmem => ?_, fun h x hmem => ?_⟩
  · exact (accepts_iff hierarchy type pattern).mp (h _ hmem)
  · exact (accepts_iff hierarchy x.2 x.1).mpr (h hmem)

/-- What a rule says about a method. -/
structure Rule.Applies (r : Rule) (s : MethodSubject) : Prop where
  /-- It is in the assembly of that name. -/
  assembly : s.descriptor.assembly.name = r.assembly
  /-- The assembly's version is not too old. -/
  low : r.versions.low.components ≤ s.descriptor.assembly.version.components
  /-- It is not too new either. -/
  high : s.descriptor.assembly.version.components ≤ r.versions.high.components
  /-- It is declared by the one type that is meant. -/
  typeToken : ∀ token ∈ r.typeToken, s.typeToken = token
  /-- It is the one method that is meant. -/
  methodToken : ∀ token ∈ r.methodToken, s.methodToken = token
  /-- It is declared by a type of such a name. -/
  typeName : r.typePattern.matches_ s.descriptor.typeName = true
  /-- It has such a name. -/
  methodName : r.methodPattern.matches_ s.descriptor.methodName = true
  /-- It has such a result. -/
  result : r.returnType.Admits s.hierarchy s.descriptor.returnType
  /-- It has such parameters. -/
  parameters : ∀ patterns ∈ r.parameters,
    List.Forall₂ (ParamPattern.Admits s.hierarchy) patterns s.descriptor.parameters

namespace Rule

variable {r : Rule} {s : MethodSubject}

/-- Constraints are left out where they would hold of every method. -/
theorem matches_eq (r : Rule) (s : MethodSubject) :
    r.matches_ s = ((RuleConstraint.tokens r.typeToken r.methodToken).holds s &&
      (RuleConstraint.method r.methodPattern).holds s &&
      (RuleConstraint.type r.typePattern).holds s &&
      (RuleConstraint.assembly r.assembly r.versions).holds s &&
      (RuleConstraint.signature r.returnType r.parameters).holds s) := by
  have htokens : ((if r.typeToken.isSome || r.methodToken.isSome then
      [RuleConstraint.tokens r.typeToken r.methodToken] else []).all fun c => c.holds s) =
      (RuleConstraint.tokens r.typeToken r.methodToken).holds s := by
    split
    · exact Bool.and_true _
    · next h =>
      simp only [Bool.or_eq_true, not_or, Option.not_isSome_iff_eq_none] at h
      rw [h.1, h.2]
      rfl
  have hsignature : ((if r.returnType != .any || r.parameters.isSome then
      [RuleConstraint.signature r.returnType r.parameters] else []).all fun c => c.holds s) =
      (RuleConstraint.signature r.returnType r.parameters).holds s := by
    split
    · exact Bool.and_true _
    · next h =>
      simp only [bne_iff_ne, Bool.or_eq_true, not_or, Option.not_isSome_iff_eq_none,
        ne_eq, not_not] at h
      rw [h.1, h.2]
      rfl
  unfold matches_ constraints
  rw [List.all_append, List.all_append, htokens, hsignature]
  simp only [List.all_cons, List.all_nil, Bool.and_true, Bool.and_assoc]

/-- A rule is tried by what it says. -/
theorem matches_iff : r.matches_ s = true ↔ r.Applies s := by
  rw [matches_eq]
  simp only [RuleConstraint.holds, Bool.and_eq_true, beq_iff_eq, VersionRange.contains_iff,
    ParamPattern.accepts_iff, Option.all_eq_true, ParamPattern.acceptAll_iff]
  constructor
  · rintro ⟨⟨⟨⟨⟨htype, hmethod⟩, hname⟩, htypeName⟩, hassembly, hlow, hhigh⟩, hresult, hparameters⟩
    exact ⟨hassembly, hlow, hhigh, fun t ht => (htype t ht).symm, fun t ht => (hmethod t ht).symm,
      htypeName, hname, hresult, hparameters⟩
  · intro h
    exact ⟨⟨⟨⟨⟨fun t ht => (h.typeToken t ht).symm, fun t ht => (h.methodToken t ht).symm⟩,
      h.methodName⟩, h.typeName⟩, h.assembly, h.low, h.high⟩, h.result, h.parameters⟩

/-- A rule is switched off by the name of its integration, where the case of ASCII letters does
not matter. -/
def Disabled (disabled : List String) (r : Rule) : Prop :=
  ∃ name ∈ disabled,
    List.Forall₂ (fun c d : Char => c.toLower = d.toLower) name.toList r.integration.toList

end Rule

namespace Registry

theorem isDisabled_iff (disabled : List String) (r : Rule) :
    isDisabled disabled r = true ↔ r.Disabled disabled := by
  unfold isDisabled Rule.Disabled
  rw [List.any_eq_true]
  refine exists_congr fun name => and_congr_right fun _ => ?_
  rw [beq_iff_eq, Text.foldCase, Text.foldCase, String.ofList_inj, ← List.forall₂_eq_eq_eq,
    List.forall₂_map_left_iff, List.forall₂_map_right_iff]

/-! ### Building -/

/-- The indexes are what the rules make them. -/
structure Indexed (g : Registry) : Prop where
  byAssembly : ∀ name, g.byAssembly.getD name [] = g.rules.filter (·.assembly == name)
  methodNames : ∀ name, g.methodNames.contains name = true ↔
    ∃ r ∈ g.rules, r.methodPattern.isLiteral = true ∧ r.methodPattern.source = name
  hasWildcards : g.hasWildcards = g.rules.any fun r => !r.methodPattern.isLiteral

theorem indexed_empty : empty.Indexed where
  byAssembly name := Std.HashMap.getD_empty
  methodNames name := by
    show (∅ : Std.HashSet String).contains name = true ↔ ∃ r ∈ [], _
    simp
  hasWildcards := rfl

theorem Indexed.add {g : Registry} (hg : g.Indexed) (r : Rule) : (g.add r).Indexed where
  byAssembly name := by
    show (g.byAssembly.insert r.assembly _).getD name [] = (g.rules ++ [r]).filter _
    rw [Std.HashMap.getD_insert, List.filter_append, ← hg.byAssembly]
    by_cases hname : r.assembly = name
    · simp [hname]
    · simp [hname]
  methodNames name := by
    show (if r.methodPattern.isLiteral = true then g.methodNames.insert r.methodPattern.source
      else g.methodNames).contains name = true ↔ ∃ r' ∈ g.rules ++ [r], _
    simp only [List.mem_append, List.mem_singleton, or_and_right, exists_or, exists_eq_left]
    rw [← hg.methodNames]
    split
    · next hliteral =>
      rw [Std.HashSet.contains_insert, Bool.or_eq_true, beq_iff_eq, or_comm]
      simp only [hliteral, true_and]
    · next hliteral => simp only [hliteral, Bool.false_eq_true, false_and, or_false]
  hasWildcards := by
    show (g.hasWildcards || !r.methodPattern.isLiteral) = (g.rules ++ [r]).any _
    rw [List.any_append, hg.hasWildcards, List.any_cons, List.any_nil, Bool.or_false]

/-- A registry is built from rules that say what they must, by adding those in use one after the
other. -/
theorem ofRules_eq_ok {rules : List Rule} {disabled : List String} {g : Registry} :
    ofRules rules disabled = .ok g ↔ (∀ r ∈ rules, validate r = .ok ()) ∧
      g = (rules.filter fun r => !isDisabled disabled r).foldl add empty := by
  unfold ofRules
  generalize empty = start
  induction rules generalizing start with
  | nil =>
    constructor
    · intro h
      exact ⟨fun _ hr => absurd hr List.not_mem_nil, (Except.ok.inj h).symm⟩
    · rintro ⟨-, rfl⟩
      rfl
  | cons r rules ih =>
    rw [List.foldlM_cons, List.forall_mem_cons]
    cases hvalid : validate r with
    | error err => exact iff_of_false nofun fun h => nomatch h.1.1
    | ok _ =>
      show List.foldlM _ (if isDisabled disabled r = true then start else start.add r) rules = _ ↔ _
      rw [ih]
      simp only [true_and]
      refine and_congr_right fun _ => ?_
      by_cases hdisabled : isDisabled disabled r = true
      · simp [hdisabled]
      · simp [hdisabled]

theorem Indexed.foldl_add {g : Registry} (hg : g.Indexed) (rules : List Rule) :
    (rules.foldl Registry.add g).Indexed ∧
      (rules.foldl Registry.add g).rules = g.rules ++ rules := by
  induction rules generalizing g with
  | nil => exact ⟨hg, (List.append_nil _).symm⟩
  | cons r rules ih =>
    obtain ⟨hindexed, hrules⟩ := ih (hg.add r)
    refine ⟨hindexed, hrules.trans ?_⟩
    show g.rules ++ [r] ++ rules = g.rules ++ r :: rules
    rw [List.append_assoc, List.singleton_append]

/-- So its indexes are right, and its rules are those in use, in order. -/
theorem indexed_of_ofRules {rules : List Rule} {disabled : List String} {g : Registry}
    (h : ofRules rules disabled = .ok g) :
    g.Indexed ∧ g.rules = rules.filter fun r => !isDisabled disabled r := by
  obtain ⟨-, rfl⟩ := ofRules_eq_ok.mp h
  exact indexed_empty.foldl_add _

/-! ### Looking rules up -/

/-- The rule that is found for a method, if any: among the rules about its assembly, unless its
name alone rules out all of them. -/
def lookUp (g : Registry) (s : MethodSubject) : Option Rule :=
  if g.mightMatch (g.candidatesFor s.descriptor.assembly) s.descriptor.methodName then
    Rule.select (g.candidatesFor s.descriptor.assembly) s
  else none

/-- Where all rules about the assembly are about this version, leaving none of them out is the
same as leaving out those that are not. -/
theorem candidatesFor_eq_filter (g : Registry) (a : AssemblyIdentity) :
    g.candidatesFor a =
      (g.byAssembly.getD a.name []).filter fun r => r.versions.contains a.version := by
  unfold candidatesFor
  dsimp only
  split
  · next hall => exact (List.filter_eq_self.mpr (List.all_eq_true.mp hall)).symm
  · rfl

variable {g : Registry} (hg : g.Indexed)
include hg

theorem candidatesFor_eq (a : AssemblyIdentity) :
    g.candidatesFor a =
      g.rules.filter fun r => r.versions.contains a.version && r.assembly == a.name := by
  rw [candidatesFor_eq_filter, hg.byAssembly, List.filter_filter]

/-- A method is not passed over if one of the rules in question is about its name: a literal
name is in the set of names, whichever rule it came from, and the others are wildcards. -/
theorem mightMatch_of_mem {candidates : List Rule} (hcandidates : candidates ⊆ g.rules) {r : Rule}
    (hr : r ∈ candidates) {name : String} (hname : r.methodPattern.matches_ name = true) :
    g.mightMatch candidates name = true := by
  unfold mightMatch
  rw [Bool.and_eq_true, Bool.or_eq_true, Bool.and_eq_true]
  refine ⟨?_, ?_⟩
  · rw [List.isEmpty_eq_false_iff_exists_mem.mpr ⟨r, hr⟩]
    rfl
  cases hliteral : r.methodPattern.isLiteral with
  | true =>
    left
    unfold NamePattern.matches_ at hname
    rw [if_pos hliteral] at hname
    exact (hg.methodNames name).mpr ⟨r, hcandidates hr, hliteral, eq_of_beq hname⟩
  | false =>
    right
    rw [hg.hasWildcards]
    refine ⟨List.any_eq_true.mpr ⟨r, hcandidates hr, ?_⟩, List.any_eq_true.mpr ⟨r, hr, hname⟩⟩
    rw [hliteral]
    rfl

/-- The rules about the assembly are tried in the order that all rules have, and those that are
about another one would not apply. -/
theorem select_candidatesFor (s : MethodSubject) :
    Rule.select (g.candidatesFor s.descriptor.assembly) s = g.rules.find? (·.matches_ s) := by
  unfold Rule.select
  rw [candidatesFor_eq hg, List.find?_filter]
  congr 1
  funext r
  cases hmatches : r.matches_ s with
  | false => exact decide_eq_false fun h => Bool.false_ne_true h.2
  | true =>
    have happlies := Rule.matches_iff.mp hmatches
    have hversion := (r.versions.contains_iff _).mpr ⟨happlies.low, happlies.high⟩
    rw [hversion, happlies.assembly, beq_self_eq_true]
    rfl

/-- What is found is what is found by trying all rules in order. -/
theorem lookUp_eq_find? (s : MethodSubject) : g.lookUp s = g.rules.find? (·.matches_ s) := by
  unfold lookUp
  rw [← select_candidatesFor hg]
  split
  · rfl
  · next hmight =>
    symm
    refine List.find?_eq_none.mpr fun r hr hmatches => hmight ?_
    refine mightMatch_of_mem hg (fun r hr => ?_) hr (Rule.matches_iff.mp hmatches).methodName
    rw [candidatesFor_eq hg] at hr
    exact (List.mem_filter.mp hr).1

omit hg

variable {rules : List Rule} {disabled : List String}

/-- So a rule is found for a method exactly if it is the first that is in use and applies. -/
theorem lookUp_eq_some_iff (h : ofRules rules disabled = .ok g) (s : MethodSubject) (r : Rule) :
    g.lookUp s = some r ↔ ∃ before after, rules = before ++ r :: after ∧
      (¬ r.Disabled disabled ∧ r.Applies s) ∧
      ∀ r' ∈ before, ¬ (¬ r'.Disabled disabled ∧ r'.Applies s) := by
  obtain ⟨hindexed, hrules⟩ := indexed_of_ofRules h
  have hwanted : ∀ r : Rule, isDisabled disabled r = false ∧ r.matches_ s = true ↔
      ¬ r.Disabled disabled ∧ r.Applies s := by
    intro r
    rw [← Bool.not_eq_true, isDisabled_iff, Rule.matches_iff]
  rw [lookUp_eq_find? hindexed, hrules, List.find?_filter, List.find?_eq_some_iff_append]
  simp only [Bool.not_eq_true', decide_eq_true_eq, decide_eq_false_iff_not, hwanted]
  constructor
  · rintro ⟨happlies, before, after, hsplit, hbefore⟩
    exact ⟨before, after, hsplit, happlies, hbefore⟩
  · rintro ⟨before, after, hsplit, happlies, hbefore⟩
    exact ⟨happlies, before, after, hsplit, hbefore⟩

/-- None is found exactly if there is none. -/
theorem lookUp_eq_none_iff (h : ofRules rules disabled = .ok g) (s : MethodSubject) :
    g.lookUp s = none ↔ ∀ r ∈ rules, ¬ (¬ r.Disabled disabled ∧ r.Applies s) := by
  obtain ⟨hindexed, hrules⟩ := indexed_of_ofRules h
  rw [lookUp_eq_find? hindexed, List.find?_eq_none, hrules]
  simp only [List.mem_filter, Bool.not_eq_true', ← Bool.not_eq_true, isDisabled_iff,
    Rule.matches_iff, and_imp, not_and]

end Registry

end CilProbe
