/-
CilProbe/Proofs/Rule/Parameters.lean

What the parameters of a method are to rules.  A descriptor has a type for each entry of the
parameter list of the signature, and a rule that lists patterns is compared with these types one
by one (`MethodDescriptor.Lists`).  Where no entry is the mark of a variable argument list, the
entries are the declared parameters, as many as the arity says.

A mark has a descriptor as well, so with a mark in the list there are more descriptors than
parameters, and the patterns of a rule have to count the mark (`marks_are_described`).  Main
result: `parameters_described`.
-/
import CilProbe.Proofs.Outcome
import CilProbe.Proofs.Rule.FirstMatch

namespace CilProbe

/-! ### Declared parameters -/

namespace MethodSig

/-- The types of the parameters, without marks of a variable argument list. -/
def declared (s : MethodSig) : List TypeSig := s.params.filter fun t => !t.isSentinel

/-- No entry of the parameter list is a mark. -/
def Unmarked (s : MethodSig) : Prop := ∀ t ∈ s.params, t.isSentinel = false

variable {s : MethodSig}

theorem arity_eq (s : MethodSig) : s.arity = s.declared.length := List.countP_eq_length_filter

theorem Unmarked.declared_eq (h : s.Unmarked) : s.declared = s.params :=
  List.filter_eq_self.mpr fun t ht => by rw [h t ht]; rfl

/-- Entries are parameters and marks. -/
theorem length_params (s : MethodSig) :
    s.params.length = s.arity + s.params.countP TypeSig.isSentinel := by
  rw [List.length_eq_countP_add_countP TypeSig.isSentinel, Nat.add_comm]
  simp [arity, TypeSig.countParams]

/-- As many entries as parameters are there only where none is a mark. -/
theorem length_eq_arity_iff : s.params.length = s.arity ↔ s.Unmarked := by
  rw [arity, TypeSig.countParams, eq_comm, List.countP_eq_length]
  refine forall₂_congr fun t _ => ?_
  cases t.isSentinel <;> decide

end MethodSig

/-! ### Descriptors -/

/-- A descriptor gives the name of a type and says whether its values are references. -/
structure TypeDescriptor.Describes (names : TypeNames) (type : TypeDescriptor) (t : TypeSig) :
    Prop where
  name : t.name names = .ok type.name
  isReference : type.isReference = t.isReference

namespace MethodDescriptor

variable {names : TypeNames} {d : MethodDescriptor} {types : List TypeSig}

/-- The given types are those of the parameters, to a descriptor and to the rules that are tried
on it. -/
structure Lists (names : TypeNames) (d : MethodDescriptor) (types : List TypeSig) : Prop where
  /-- Each of them is described in its place. -/
  described : List.Forall₂ (TypeDescriptor.Describes names) d.parameters types
  /-- A rule applies only if it has a pattern for each of them, and this one admits it. -/
  compared : ∀ (r : Rule) (m : MethodSubject) (patterns : List ParamPattern), m.descriptor = d →
    r.parameters = some patterns → r.matches_ m = true →
    List.Forall₂ (fun pattern t => ∃ type : TypeDescriptor, type.Describes names t ∧
      pattern.Admits m.hierarchy type) patterns types

theorem describe_eq_ok {t : TypeSig} {type : TypeDescriptor} :
    describe names t = .ok type ↔ type.Describes names t := by
  unfold describe
  rw [bind_eq_ok]
  constructor
  · rintro ⟨name, hname, h⟩
    obtain rfl := pure_eq_ok.mp h
    exact ⟨hname, rfl⟩
  · intro h
    exact ⟨type.name, h.name, pure_eq_ok.mpr (by rw [← h.isReference])⟩

/-- A mark has a name of its own, so types that are not marks are all that have to be named. -/
theorem exists_describes {s : MethodSig}
    (h : ∀ t ∈ s.declared, ∃ name, t.name names = .ok name) :
    ∃ parameters, s.params.mapM (describe names) = .ok parameters := by
  have hall : ∀ t ∈ s.params, ∃ type, describe names t = .ok type := by
    intro t ht
    obtain ⟨name, hname⟩ : ∃ name, t.name names = .ok name := by
      cases hmark : t.isSentinel with
      | false => exact h t (List.mem_filter.mpr ⟨ht, by rw [hmark]; rfl⟩)
      | true =>
        cases t with
        | sentinel => exact ⟨"...", by rw [TypeSig.name]⟩
        | _ => cases hmark
    exact ⟨⟨name, t.isReference⟩, describe_eq_ok.mpr ⟨hname, rfl⟩⟩
  choose! type htype using hall
  refine ⟨s.params.map type, mapM_eq_ok.mpr ?_⟩
  rw [List.forall₂_map_right_iff, List.forall₂_same]
  exact htype

/-- Rules see the types through their descriptors. -/
theorem lists_of_described
    (h : List.Forall₂ (TypeDescriptor.Describes names) d.parameters types) :
    d.Lists names types where
  described := h
  compared r m patterns hd hpatterns hmatches := by
    have hadmits := (Rule.matches_iff.mp hmatches).parameters patterns hpatterns
    rw [hd] at hadmits
    refine List.forall₂_iff_get.mpr ⟨hadmits.length_eq.trans h.length_eq, fun i hi hi' => ?_⟩
    have hi'' : i < d.parameters.length := h.length_eq ▸ hi'
    exact ⟨d.parameters.get ⟨i, hi''⟩, h.get hi'' hi', hadmits.get hi hi''⟩

end MethodDescriptor

/-- A method whose signature can be parsed and whose types have names is resolved.  Its
descriptor lists the entries of the parameter list, in order; these are the declared parameters,
as many as the arity says, exactly if none of them is a mark of a variable argument list. -/
theorem parameters_described {metadata : MetadataView} {props : MethodProps} {s : MethodSig}
    (assembly : AssemblyIdentity) (hparse : MethodSig.parse props.signature = .ok s)
    (htypes : ∀ t ∈ s.ret :: s.declared, ∃ name, t.name metadata.typeName = .ok name)
    (htype : ∃ name, metadata.typeName props.typeToken = .ok name) :
    ∃ d, MethodDescriptor.resolve metadata props assembly = .ok d ∧ d.signature = s ∧
      d.Lists metadata.typeName s.params ∧
      d.parameters.length = s.arity + s.params.countP TypeSig.isSentinel ∧
      (d.parameters.length = s.arity ↔ s.Unmarked) ∧
      (s.Unmarked → d.Lists metadata.typeName s.declared ∧
        ∀ (r : Rule) (m : MethodSubject) (patterns : List ParamPattern), m.descriptor = d →
          r.parameters = some patterns → r.matches_ m = true → patterns.length = s.arity) := by
  obtain ⟨⟨retName, hret⟩, hparams⟩ := List.forall_mem_cons.mp htypes
  obtain ⟨parameters, hparameters⟩ := MethodDescriptor.exists_describes hparams
  obtain ⟨typeName, htypeName⟩ := htype
  let ret : TypeDescriptor := ⟨retName, s.ret.isReference⟩
  have hdescribe : MethodDescriptor.describe metadata.typeName s.ret = .ok ret :=
    MethodDescriptor.describe_eq_ok.mpr ⟨hret, rfl⟩
  let d : MethodDescriptor := ⟨typeName, props.name, s, ret, parameters, assembly⟩
  have hresolve : MethodDescriptor.resolve metadata props assembly = .ok d :=
    bind_eq_ok.mpr ⟨s, hparse, bind_eq_ok.mpr ⟨ret, hdescribe,
      bind_eq_ok.mpr ⟨parameters, hparameters, bind_eq_ok.mpr ⟨typeName, htypeName, rfl⟩⟩⟩⟩
  have hlists : d.Lists metadata.typeName s.params := by
    apply MethodDescriptor.lists_of_described
    exact ((mapM_eq_ok.mp hparameters).imp fun _ _ => MethodDescriptor.describe_eq_ok.mp).flip
  have hlength : d.parameters.length = s.params.length := hlists.described.length_eq
  refine ⟨d, hresolve, rfl, hlists, ?_, ?_, fun hunmarked => ?_⟩
  · rw [hlength, MethodSig.length_params]
  · rw [hlength, MethodSig.length_eq_arity_iff]
  · have hdeclared : d.Lists metadata.typeName s.declared := by
      rw [hunmarked.declared_eq]
      exact hlists
    refine ⟨hdeclared, fun r m patterns hd hpatterns hmatches => ?_⟩
    rw [MethodSig.arity_eq]
    exact (hdeclared.compared r m patterns hd hpatterns hmatches).length_eq

/-! ### Methods with two parameters -/

/-- Metadata in which every type has the same name and nothing else is found. -/
def consoleView : MetadataView where
  typeName := fun _ => .ok "Sample.Console"
  methodProps := fun method => .error (.tokenNotFound method)
  memberSignature := fun member => .error (.tokenNotFound member)
  standAloneSignature := fun token => .error (.tokenNotFound token)
  coreLibrary := .error (.tokenNotFound ⟨0⟩)
  hierarchy := none

/-- A method with the given signature. -/
def printProps (signature : List UInt8) : MethodProps :=
  ⟨⟨0x06000010⟩, ⟨0x02000002⟩, "Print", signature⟩

/-- The signature of a method that takes a text and an instance of a class. -/
def printSignature : MethodSig :=
  ⟨0x20, 0, .primitive .void, [.primitive .string, .classType ⟨0x01000002⟩]⟩

/-- Its bytes. -/
def printBytes : List UInt8 := [0x20, 0x02, 0x01, 0x0E, 0x12, 0x09]

theorem parameters_described_printSignature :
    MethodSig.parse (printProps printBytes).signature = .ok printSignature ∧
      (∀ t ∈ printSignature.ret :: printSignature.declared,
        ∃ name, t.name consoleView.typeName = .ok name) ∧
      (∃ name, consoleView.typeName (printProps printBytes).typeToken = .ok name) ∧
      printSignature.Unmarked ∧
      ∃ d, MethodDescriptor.resolve consoleView (printProps printBytes) ⟨"Sample", default⟩ =
          .ok d ∧ d.parameters.length = 2 ∧
        d.Lists consoleView.typeName [.primitive .string, .classType ⟨0x01000002⟩] := by
  have hparse : MethodSig.parse (printProps printBytes).signature = .ok printSignature := rfl
  have htypes : ∀ t ∈ printSignature.ret :: printSignature.declared,
      ∃ name, t.name consoleView.typeName = .ok name := by
    show ∀ t ∈ [TypeSig.primitive .void, .primitive .string, .classType ⟨0x01000002⟩], _
    simp only [List.forall_mem_cons]
    exact ⟨⟨_, rfl⟩, ⟨_, rfl⟩, ⟨_, rfl⟩, nofun⟩
  have htype : ∃ name, consoleView.typeName (printProps printBytes).typeToken = .ok name :=
    ⟨_, rfl⟩
  have hunmarked : printSignature.Unmarked := by
    show ∀ t ∈ [TypeSig.primitive .string, .classType ⟨0x01000002⟩], _
    simp [TypeSig.isSentinel]
  obtain ⟨d, hresolve, -, -, -, hlength, hdeclared⟩ :=
    parameters_described ⟨"Sample", default⟩ hparse htypes htype
  exact ⟨hparse, htypes, htype, hunmarked, d, hresolve, hlength.mpr hunmarked,
    (hdeclared hunmarked).1⟩

/-- A rule for the method, with the given patterns for its parameters. -/
def printRule (patterns : List ParamPattern) : Rule where
  integration := "Sample"
  assembly := "Sample"
  versions := .any
  typePattern := ⟨"Sample.Console"⟩
  methodPattern := ⟨"Print"⟩
  returnType := .any
  parameters := some patterns
  typeToken := none
  methodToken := none
  helper := { assembly := "Helpers", typeName := "Helpers.Probe" }
  policy := .full

/-- With a mark between two parameters there are three descriptors, and a rule with three patterns
applies while the one with a pattern for each parameter does not. -/
theorem marks_are_described :
    ∃ d, MethodDescriptor.resolve consoleView
        (printProps [0x05, 0x02, 0x01, 0x0E, 0x41, 0x08]) ⟨"Sample", default⟩ = .ok d ∧
      d.signature.arity = 2 ∧ d.parameters.length = 3 ∧
      (printRule [.exact "System.String", .any, .exact "System.Int32"]).matches_
        ⟨⟨0x02000002⟩, ⟨0x06000010⟩, d, none⟩ = true ∧
      (printRule [.exact "System.String", .exact "System.Int32"]).matches_
        ⟨⟨0x02000002⟩, ⟨0x06000010⟩, d, none⟩ = false := by
  let types : List TypeDescriptor :=
    [⟨"System.String", true⟩, ⟨"...", false⟩, ⟨"System.Int32", false⟩]
  let s : MethodSig := ⟨0x05, 0, .primitive .void, [.primitive .string, .sentinel, .primitive .i4]⟩
  exact ⟨⟨"Sample.Console", "Print", s, ⟨"System.Void", false⟩, types, ⟨"Sample", default⟩⟩, rfl,
    rfl, rfl, by decide, by decide⟩

end CilProbe
