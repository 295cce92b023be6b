/-
CilProbe/Proofs/Engine/Choice.lean

The rule that an engine chooses for a method.  The candidates in a record were looked up when
the module was recorded, and they are those of the registry still (`Listed`), so a
compilation chooses the rule that is found by looking it up in the registry, which is the
first that is in use and applies (`chosen_rule_first`).
-/
import CilProbe.Proofs.Engine.Once
import CilProbe.Proofs.Engine.Steps
import CilProbe.Proofs.Outcome
import CilProbe.Proofs.Rule.FirstMatch

namespace CilProbe

open Proc

namespace Engine

/-! ### Candidates -/

/-- The candidates in every record are those that the registry has for its module, and its
metadata is open if there are any. -/
def Listed (e : Engine) (s : EngineState) : Prop :=
  ∀ id r, s.record? id = some r →
    r.candidates = e.registry.candidatesFor r.identity ∧ r.metadataOpen = !r.candidates.isEmpty

theorem listed_fresh (e : Engine) (retryLimit : Nat) : e.Listed (.fresh retryLimit) := by
  intro id r hr
  cases (Array.getElem?_empty : (#[] : Array ModuleRecord)[id]? = none).symm.trans hr

theorem preserved_listed (e : Engine) : e.Preserved e.Listed := by
  intro s s' hstep hs
  -- most steps leave the records alone
  have hsame : ∀ {s' : EngineState}, s'.records = s.records → e.Listed s' := by
    intro s' hrecords id r hr
    refine hs id r ?_
    unfold EngineState.record? at hr ⊢
    rw [← hrecords]
    exact hr
  cases hstep with
  | counted k => exact hsame rfl
  | finished r =>
    rcases r with err | - | outcome
    · exact hsame rfl
    · exact hs
    · exact hsame rfl
  | cached id row => exact hsame rfl
  | claimed id method integration =>
    intro id' r hr
    rw [EngineState.record?_claim] at hr
    obtain ⟨r', hr', rfl⟩ := Option.map_eq_some_iff.mp hr
    exact hs id' r' hr'
  | enrolled m info =>
    unfold enrolled
    rw [EngineState.enroll_eq]
    split
    · exact hsame rfl
    · intro id r hr
      have hr : (s.records.push _)[id]? = some r := hr
      rw [Array.getElem?_push] at hr
      split at hr
      · obtain rfl := Option.some.inj hr
        exact ⟨rfl, rfl⟩
      · exact hs id r hr
  | removed m => exact hsame rfl
  | assemblyRemoved a => exact removeAssembly_preserves (fun _ _ => id) hs a
  | tornDown =>
    unfold EngineState.tearDown
    split
    · exact hs
    · exact hsame rfl

/-! ### Choosing -/

section Choosing

variable {e : Engine} {τ : Type} {h : Host τ}
  {deliver : Event → World EngineState τ → World EngineState τ} {w w₁ w₂ : World EngineState τ}
  {function : FunctionId} {info : FunctionInfo} {id : RecordId} {record : ModuleRecord}
  {view : MetadataView} {props : MethodProps} {descriptor : MethodDescriptor}

/-- A method is resolved with its own name and with the assembly that it is in. -/
theorem resolved_of_resolve {a : AssemblyIdentity}
    (hresolve : MethodDescriptor.resolve view props a = .ok descriptor) :
    descriptor.assembly = a ∧ descriptor.methodName = props.name := by
  obtain ⟨signature, -, hresolve⟩ := bind_eq_ok.mp hresolve
  obtain ⟨returnType, -, hresolve⟩ := bind_eq_ok.mp hresolve
  obtain ⟨parameters, -, hresolve⟩ := bind_eq_ok.mp hresolve
  obtain ⟨typeName, -, hresolve⟩ := bind_eq_ok.mp hresolve
  obtain rfl := pure_eq_ok.mp hresolve
  exact ⟨rfl, rfl⟩

/-- A rule is selected among the candidates of the record, unless the method's name alone rules
out all of them. -/
theorem runs_selectRule (e : Engine) (id : RecordId) {token : Token}
    (hview : exchange h deliver (.metadata record.module) w₁ = (view, w₂))
    (hprops : view.methodProps token = .ok props)
    (hresolve : MethodDescriptor.resolve view props record.identity = .ok descriptor) :
    ∃ c, (e.selectRule id record token).run.Runs h deliver w₁
      (.ok (if e.registry.mightMatch record.candidates props.name then
        some ((Rule.select record.candidates
          ⟨props.typeToken, props.token, descriptor, view.hierarchy⟩).map
            (⟨id, record, props, descriptor⟩, ·)) else none)) c w₂ := by
  obtain rfl := congrArg Prod.fst hview
  obtain rfl := congrArg Prod.snd hview
  refine ⟨_, runs_demand_bind.mpr (.inr ⟨_, .empty, rfl, ?_, rfl⟩)⟩
  refine Attempt.runs_mk_bind.mpr (.inr ⟨props, hprops, ?_⟩)
  split
  · next hrefused =>
    rw [if_neg (Bool.not_eq_true _ ▸ (Bool.not_eq_true' _ ▸ hrefused))]
    exact Attempt.runs_pure.mpr ⟨rfl, rfl, rfl⟩
  · next hmight =>
    rw [if_pos (by simpa using hmight)]
    exact Attempt.runs_mk_bind.mpr
      (.inr ⟨descriptor, hresolve, Attempt.runs_pure.mpr ⟨rfl, rfl, rfl⟩⟩)

/-- A method is looked for in the record of its module, if there are any candidates in it. -/
theorem runs_locate (hinfo : exchange h deliver (.functionInfo function) w = (.ok info, w₁))
    (hfind : w₁.engine.find? info.module = some (id, record)) :
    ∃ c, (locate function).run.Runs h deliver w
      (.ok (if record.candidates.isEmpty || !record.metadataOpen then none
        else some (id, record, info.token))) c w₁ := by
  obtain rfl := congrArg Prod.snd hinfo
  refine ⟨_, runs_demand_bind.mpr (.inr ⟨info, .empty, congrArg Prod.fst hinfo, ?_, rfl⟩)⟩
  refine Attempt.runs_get_bind.mpr ?_
  rw [hfind]
  dsimp only
  split
  · exact Attempt.runs_pure.mpr ⟨rfl, rfl, rfl⟩
  · exact Attempt.runs_pure.mpr ⟨rfl, rfl, rfl⟩

/-- What a compilation chooses is what is found by looking it up. -/
theorem chosen_eq_lookUp (hlisted : e.Listed w₁.engine)
    (hinfo : exchange h deliver (.functionInfo function) w = (.ok info, w₁))
    (hfind : w₁.engine.find? info.module = some (id, record))
    (hview : exchange h deliver (.metadata record.module) w₁ = (view, w₂))
    (hprops : view.methodProps info.token = .ok props)
    (hresolve : MethodDescriptor.resolve view props record.identity = .ok descriptor) :
    ∃ chosen, ((e.choose function).run.run h deliver w).1 = .ok chosen ∧
      chosen.join.map Prod.snd = e.registry.lookUp
        ⟨props.typeToken, props.token, descriptor, view.hierarchy⟩ := by
  obtain ⟨hassembly, hname⟩ := resolved_of_resolve hresolve
  obtain ⟨hcandidates, hopen⟩ := hlisted id record (EngineState.find?_eq_some.mp hfind).2
  have hlookUp : e.registry.lookUp ⟨props.typeToken, props.token, descriptor, view.hierarchy⟩ =
      if e.registry.mightMatch record.candidates props.name then
        Rule.select record.candidates ⟨props.typeToken, props.token, descriptor, view.hierarchy⟩
      else none := by
    rw [hcandidates, ← hassembly, ← hname]
    rfl
  obtain ⟨c₁, hlocate⟩ := runs_locate hinfo hfind
  rw [hopen, Bool.not_not, Bool.or_self] at hlocate
  cases hempty : record.candidates.isEmpty with
  | true =>
    -- the record is passed over, and there is nothing to be found
    rw [hempty, if_pos rfl] at hlocate
    have hruns : (e.choose function).run.Runs h deliver w (.ok none) (c₁ ++ .empty) w₁ :=
      Attempt.runs_bind.mpr (.inr ⟨none, _, _, _, hlocate, Attempt.runs_pure.mpr ⟨rfl, rfl, rfl⟩, rfl⟩)
    refine ⟨none, congrArg Prod.fst hruns.1, ?_⟩
    rw [hlookUp]
    unfold Registry.mightMatch
    rw [hempty]
    rfl
  | false =>
    rw [hempty, if_neg Bool.false_ne_true] at hlocate
    obtain ⟨c₂, hselect⟩ := runs_selectRule e id hview hprops hresolve
    have hruns : ∃ c, (e.choose function).run.Runs h deliver w _ c w₂ :=
      ⟨_, Attempt.runs_bind.mpr (.inr ⟨some (id, record, info.token), c₁, w₁, c₂, hlocate, hselect,
        rfl⟩)⟩
    obtain ⟨c, hruns⟩ := hruns
    refine ⟨_, congrArg Prod.fst hruns.1, ?_⟩
    rw [hlookUp]
    split
    · simp only [Option.join_some, Option.map_map, Function.comp_def, Option.map_id']
    · rfl

end Choosing

/-! ### The first rule -/

/-- In a registry built from rules that say what they must, the rule that is looked up for a
method is the first that is in use and applies to it, and there is none only if there is no such
rule; a method is never passed over by its name while a rule is about it, and leaving no rule of
the assembly out is the same as leaving out those about other versions.  At every moment of every
run this is the rule that a compilation chooses. -/
theorem chosen_rule_first {rules : List Rule} {disabled : List String} {g : Registry}
    (hg : Registry.ofRules rules disabled = .ok g) :
    (∀ s : MethodSubject,
      (∀ r, g.lookUp s = some r ↔ ∃ before after, rules = before ++ r :: after ∧
        (¬ r.Disabled disabled ∧ r.Applies s) ∧
        ∀ r' ∈ before, ¬ (¬ r'.Disabled disabled ∧ r'.Applies s)) ∧
      (g.lookUp s = none ↔ ∀ r ∈ rules, ¬ (¬ r.Disabled disabled ∧ r.Applies s))) ∧
    (∀ candidates ⊆ g.rules, ∀ r ∈ candidates, ∀ name, r.methodPattern.matches_ name = true →
      g.mightMatch candidates name = true) ∧
    (∀ a, g.candidatesFor a = (g.byAssembly.getD a.name []).filter (·.versions.contains a.version) ∧
      g.candidatesFor a =
        g.rules.filter fun r => r.versions.contains a.version && r.assembly == a.name) ∧
    ∀ (e : Engine) (τ : Type) (h : Host τ) (depth : Nat), e.registry = g →
      (∀ events retryLimit t, ∀ c ∈ e.histories h depth events ⟨.fresh retryLimit, t⟩,
        e.Listed c.before.engine ∧ e.Listed c.after.engine) ∧
      ∀ (w w₁ w₂ : World EngineState τ) (function : FunctionId) (info : FunctionInfo)
        (id : RecordId) (record : ModuleRecord) (view : MetadataView) (props : MethodProps)
        (descriptor : MethodDescriptor), e.Listed w.engine →
        exchange h (e.inner h depth) (.functionInfo function) w = (.ok info, w₁) →
        w₁.engine.find? info.module = some (id, record) →
        exchange h (e.inner h depth) (.metadata record.module) w₁ = (view, w₂) →
        view.methodProps info.token = .ok props →
        MethodDescriptor.resolve view props record.identity = .ok descriptor →
        ∃ chosen, ((e.choose function).run.run h (e.inner h depth) w).1 = .ok chosen ∧
          chosen.join.map Prod.snd =
            g.lookUp ⟨props.typeToken, props.token, descriptor, view.hierarchy⟩ := by
  obtain ⟨hindexed, -⟩ := Registry.indexed_of_ofRules hg
  refine ⟨fun s => ⟨Registry.lookUp_eq_some_iff hg s, Registry.lookUp_eq_none_iff hg s⟩,
    fun candidates hcandidates r hr name => Registry.mightMatch_of_mem hindexed hcandidates hr,
    fun a => ⟨g.candidatesFor_eq_filter a, Registry.candidatesFor_eq hindexed a⟩, ?_⟩
  rintro e τ h depth rfl
  have hpreserved := e.preserved_listed
  refine ⟨fun events retryLimit t =>
    (hpreserved.histories h depth events _ (e.listed_fresh retryLimit)).2, ?_⟩
  intro w w₁ w₂ function info id record view props descriptor hw hinfo hfind hview hprops hresolve
  have hlisted : e.Listed w₁.engine := by
    have hexchange := Preserved.exchange (h := h) (hpreserved.inner h depth)
      (.functionInfo function) w hw
    rw [hinfo] at hexchange
    exact hexchange
  exact chosen_eq_lookUp hlisted hinfo hfind hview hprops hresolve

/-- Rules of which one is switched off, one is about another assembly, one is about other
methods, and the other two apply. -/
def crowdedRules : List Rule :=
  [{ constantRule with integration := "Off" }, { constantRule with assembly := "Other" },
    { constantRule with methodPattern := ⟨"On*"⟩ }, constantRule,
    { constantRule with integration := "Late" }]

/-- The registry of those that are not switched off. -/
def crowdedRegistry : Registry :=
  (crowdedRules.filter fun r => !Registry.isDisabled ["oFF"] r).foldl Registry.add .empty

/-- The method that the rules are about. -/
def constantSubject : MethodSubject where
  typeToken := ⟨0x02000002⟩
  methodToken := constantRequest.method
  descriptor :=
    { typeName := "Sample.Numbers", methodName := "Zero", signature := constantRequest.signature,
      returnType := ⟨"System.Int32", false⟩, parameters := [], assembly := constantFacts.identity }
  hierarchy := none

/-- An engine with these rules. -/
def crowdedEngine : Engine := ⟨crowdedRegistry, 32, .structural⟩

/-- The module is loaded. -/
def constantLoaded : World EngineState (List Installation) :=
  ⟨crowdedEngine.enrolled (.fresh 3) 1 constantFacts.info, []⟩

theorem chosen_rule_first_crowded :
    Registry.ofRules crowdedRules ["oFF"] = .ok crowdedRegistry ∧
      crowdedRegistry.lookUp constantSubject = some constantRule ∧
      ∃ chosen, ((crowdedEngine.choose 1).run.run restlessHost (crowdedEngine.inner restlessHost 0)
          constantLoaded).1 = .ok chosen ∧ chosen.join.map Prod.snd = some constantRule := by
  have hg : Registry.ofRules crowdedRules ["oFF"] = .ok crowdedRegistry := by
    refine Registry.ofRules_eq_ok.mpr ⟨?_, rfl⟩
    decide
  have hfound : crowdedRegistry.lookUp constantSubject = some constantRule := by
    refine (((chosen_rule_first hg).1 constantSubject).1 constantRule).mpr ?_
    refine ⟨crowdedRules.take 3, crowdedRules.drop 4, rfl, ?_, ?_⟩
    · rw [← Registry.isDisabled_iff, ← Rule.matches_iff]
      decide
    · simp only [← Registry.isDisabled_iff, ← Rule.matches_iff]
      decide
  refine ⟨hg, hfound, ?_⟩
  rw [← hfound]
  have hlisted : crowdedEngine.Listed constantLoaded.engine :=
    crowdedEngine.preserved_listed _ _ (.enrolled _ _ _) (crowdedEngine.listed_fresh 3)
  have hfind : constantLoaded.engine.find? 1 = some (0, recordOf 1 constantFacts.info
      (crowdedRegistry.candidatesFor constantFacts.identity) 0) :=
    EngineState.find?_eq_some.mpr ⟨Std.ExtTreeMap.getElem?_insert_self, rfl⟩
  exact ((chosen_rule_first hg).2.2.2 crowdedEngine _ restlessHost 0 rfl).2 constantLoaded _ _ 1 _
    _ _ _ _ constantSubject.descriptor hlisted rfl hfind rfl rfl rfl

end Engine

end CilProbe
