/-
CilProbe/Proofs/Engine/Compiling.lean

The ways a compilation can go.  `Engine.Compiling` lists them from the first question to
the outcome, with the course of each, and `Engine.Instrumenting` those of a method that
was claimed; every run is one of them (`compiling_of_runs`, `instrumenting_of_runs`).
For each part of a compilation there is a lemma that says what it may ask and what it may
do to the state: before the claim it changes nothing, behind it it does no more than put
rows in token caches.
-/
import CilProbe.Engine.Dispatch
import CilProbe.Proofs.Engine.Runs
import CilProbe.Proofs.Probe.Recognition

namespace CilProbe

/-! ### Questions and steps -/

/-- A row was put in a token cache. -/
def EngineState.Records (s s' : EngineState) : Prop :=
  ∃ id e, s' = { s with emitter := s.emitter.modifyCache id (·.record e) }

/-- A module was recorded. -/
def EngineState.Enrolls (s s' : EngineState) : Prop :=
  ∃ m info candidates, s' = Engine.enroll s m info candidates

open Proc

section Parts

variable {Q : Query → Prop} {R : EngineState → EngineState → Prop}

/-! ### Tokens -/

namespace Engine

theorem confined_demand {α : Type} {q : Query} (hq : Q q) (answer : q.Answer → Except Error α)
    (s : EngineState) : (demand q answer).run.Confined Q R s :=
  ⟨hq, fun _ _ => trivial⟩

variable {m : ModuleId} {id : CacheId}

theorem confined_defineWithin (hdefine : ∀ row, Q (.define m row)) (row : MetadataRow)
    (retries : Nat) :
    ∀ made s, ((moduleAccess m id).defineWithin row retries made).Confined Q R s := by
  induction retries with
  | zero => exact fun made s => ⟨hdefine row, fun _ _ => trivial⟩
  | succ retries ih =>
    intro made s
    refine ⟨hdefine row, fun a s => ?_⟩
    show (Proc.bind (.done a) _).Confined Q R s
    rw [Proc.bind]
    split
    · trivial
    · exact ih (made + 1) s
    · trivial

/-- A row that is not in the cache is asked for if the module can be written to. -/
theorem token_eq (row : MetadataRow) :
    ((moduleAccess m id).token row).run = .read fun s =>
      match (s.emitter.cache id).get? row, (s.emitter.cache id).lock with
      | some token, _ => .done (.ok token)
      | none, .error e => .done (.error e)
      | none, .ok () => (moduleAccess m id).emit row (s.emitter.cache id).retryLimit := rfl

/-- The token of a row is in the cache already, or it is asked for and put there. -/
theorem confined_token (hdefine : ∀ row, Q (.define m row))
    (hrecord : ∀ s s', EngineState.Records s s' → R s s') (row : MetadataRow) (s : EngineState) :
    ((moduleAccess m id).token row).run.Confined Q R s := by
  rw [token_eq, Proc.Confined]
  split
  · trivial
  · trivial
  · refine Confined.bind (confined_defineWithin hdefine row _ 0 s) fun r s => ?_
    cases r with
    | error e => trivial
    | ok made => exact ⟨hrecord _ _ ⟨id, _, rfl⟩, trivial⟩

end Engine

end Parts

/-! ### Probes -/

section Probes

variable {σ : Type} {K : (α : Type) → Attempt σ α → Attempt σ α → Prop}

variable (hK : Attempt.Closed K)
include hK

theorem closed_probeBehind {source source' : TokenSource (Proc σ)}
    (hexit : ∀ ret, K _ (source.exit ret) (source'.exit ret))
    (hexception : K _ source.exceptionType source'.exceptionType)
    (hlocals : ∀ blob, K _ (source.localSignature blob) (source'.localSignature blob))
    (limit : Nat) (request : ProbeRequest) (body : MethodBody) (code : List UInt8)
    (instructions : List (Instruction Offset)) (enter : Token) :
    K _ (probeBehind limit request source body code instructions enter)
      (probeBehind limit request source' body code instructions enter) := by
  have htokens : ∀ slots, K _ (source.exitTokens request slots) (source'.exitTokens request slots) := by
    intro slots
    refine hK.bind (hexit _) fun exit => ?_
    cases request.policy.exception with
    | true => exact hK.bind (hK.map some hexception) fun type => hK.pure (exit, type)
    | false => exact hK.bind (hK.pure none) fun type => hK.pure (exit, type)
  have hfinish : ∀ draft : Draft, K _
      (do
        let blob ← ExceptT.mk (pure draft.locals.encode)
        let localsToken ← source.localSignature blob
        return .probed (← ExceptT.mk (pure (draft.finish (max limit 1) localsToken))) :
        Attempt σ ProbeOutcome)
      (do
        let blob ← ExceptT.mk (pure draft.locals.encode)
        let localsToken ← source'.localSignature blob
        return .probed (← ExceptT.mk (pure (draft.finish (max limit 1) localsToken)))) :=
    fun draft => hK.bind (hK.known _) fun blob => hK.bind (hlocals blob) fun localsToken =>
      hK.bind (hK.known _) fun method => hK.pure _
  refine hK.bind (hK.known _) fun _ => ?_
  refine hK.bind (hK.known _) fun draft => ?_
  refine hK.bind (hK.known _) fun draft => ?_
  dsimp only
  split
  · -- without an exit there are no more tokens to ask for
    exact hK.bind (hK.pure _) hfinish
  · refine hK.bind (htokens _) fun ⟨exit, type⟩ => ?_
    exact hK.bind (hK.known _) hfinish

/-- A method is instrumented with what its source of tokens asks and does. -/
theorem closed_probe {source source' : TokenSource (Proc σ)} (henter : K _ source.enter source'.enter)
    (hexit : ∀ ret, K _ (source.exit ret) (source'.exit ret))
    (hexception : K _ source.exceptionType source'.exceptionType)
    (hlocals : ∀ blob, K _ (source.localSignature blob) (source'.localSignature blob))
    (limit : Nat) (request : ProbeRequest) :
    K _ (probe limit request source) (probe limit request source') := by
  rw [probe_eq, probe_eq]
  refine hK.bind (hK.known _) fun ⟨body, code⟩ => ?_
  refine hK.bind (hK.known _) fun instructions => ?_
  refine hK.bind henter fun enter => ?_
  split
  · exact hK.pure _
  · exact closed_probeBehind hK hexit hexception hlocals limit request body code instructions enter

section Tokens

variable {a a' : ModuleAccess (Proc σ)} (htoken : ∀ row, K _ (a.token row) (a'.token row))
  (helper : HelperRef)
include htoken

theorem closed_typeToken : K _ (helper.typeToken a) (helper.typeToken a') :=
  hK.bind (htoken _) fun _ => htoken _

theorem closed_methodToken (name : String) (signature : MethodSig) :
    K _ (helper.methodToken a name signature) (helper.methodToken a' name signature) :=
  hK.bind (closed_typeToken hK htoken helper) fun _ => hK.bind (hK.known _) fun _ => htoken _

theorem closed_objectToken (hcore : K _ (ExceptT.mk a.coreLibrary) (ExceptT.mk a'.coreLibrary)) :
    K _ (HelperRef.objectToken a) (HelperRef.objectToken a') :=
  hK.bind hcore fun _ => htoken _

/-- A source of tokens of a module does what looking up one token does, and asks for the core
library. -/
theorem closed_probe_tokens
    (hcore : K _ (ExceptT.mk a.coreLibrary) (ExceptT.mk a'.coreLibrary)) (limit : Nat)
    (request : ProbeRequest) :
    K _ (probe limit request (helper.tokens a)) (probe limit request (helper.tokens a')) :=
  closed_probe hK (closed_methodToken hK htoken helper _ _)
    (fun _ => closed_methodToken hK htoken helper _ _) (closed_objectToken hK htoken hcore)
    (fun _ => htoken _) limit request

end Tokens

end Probes

namespace Engine

/-! ### Parts of a compilation -/

/-- What comes before the claim: find the method and a rule that applies to it. -/
def choose (e : Engine) (function : FunctionId) :
    EngineAttempt (Option (Option (Subject × Rule))) := do
  let some (id, record, token) ← locate function | return none
  e.selectRule id record token

/-- The claim and what comes behind it. -/
def pursue (e : Engine) : Option (Option (Subject × Rule)) → EngineAttempt (Option MethodOutcome)
  | none => return none
  | some none => return some .passedThrough
  | some (some (s, rule)) => do
    if ← claim s rule then e.instrument s rule else return some .passedThrough

/-- What comes behind the body when a method is read. -/
def readLocals (s : Subject) (body : List UInt8) : EngineAttempt (List UInt8 × List UInt8) := do
  match (← known (MethodBody.read body)).localSignature? with
  | none => return (body, [])
  | some token => do
    let view ← metadata s.record.module
    return (body, ← known (view.standAloneSignature token))

/-- Instrumenting a method for a rule, with rows of its own module. -/
def probing (e : Engine) (s : Subject) (rule : Rule) (data locals : List UInt8) :
    EngineAttempt ProbeOutcome :=
  probe e.passLimit (request s rule data locals)
    (rule.helper.tokens (moduleAccess s.record.module s.record.cache))

/-- A module recorded, with the rules that may apply to its methods. -/
def enrolled (e : Engine) (s : EngineState) (m : ModuleId) (info : ModuleInfo) : EngineState :=
  enroll s m info (e.registry.candidatesFor ⟨info.assemblyName, info.assemblyVersion⟩)

theorem compile_eq (e : Engine) (function : FunctionId) :
    e.compile function = e.choose function >>= e.pursue := by
  unfold compile choose
  rw [LawfulMonad.bind_assoc]
  congr 1
  funext found
  rcases found with - | ⟨id, record, token⟩
  · rfl
  · show e.selectRule id record token >>= _ = e.selectRule id record token >>= e.pursue
    apply congrArg
    funext selected
    rcases selected with - | - | ⟨s, rule⟩
    · rfl
    · rfl
    · rfl

/-! ### What the parts ask and do -/

section Parts

variable {Q : Query → Prop} {R : EngineState → EngineState → Prop}

theorem confined_locate {function : FunctionId} (hfunction : Q (.functionInfo function))
    (s : EngineState) : (locate function).run.Confined Q R s := by
  refine Attempt.confined_bind (confined_demand hfunction _ s) fun info s => ?_
  refine Attempt.confined_bind (Attempt.confined_get s) fun state s => ?_
  split
  · split
    · exact Attempt.confined_pure _ s
    · exact Attempt.confined_pure _ s
  · exact Attempt.confined_pure _ s

theorem confined_selectRule (e : Engine) (id : RecordId) (record : ModuleRecord) (token : Token)
    (hmetadata : Q (.metadata record.module)) (s : EngineState) :
    (e.selectRule id record token).run.Confined Q R s := by
  refine Attempt.confined_bind (confined_demand hmetadata _ s) fun view s => ?_
  refine Attempt.confined_bind (Attempt.confined_mk _ s) fun props s => ?_
  split
  · exact Attempt.confined_pure _ s
  · refine Attempt.confined_bind (Attempt.confined_mk _ s) fun descriptor s => ?_
    exact Attempt.confined_pure _ s

/-- A method and its rule are found without any change to the state. -/
theorem confined_choose (e : Engine) (function : FunctionId)
    (hfunction : Q (.functionInfo function)) (hmetadata : ∀ m, Q (.metadata m))
    (s : EngineState) : (e.choose function).run.Confined Q R s := by
  refine Attempt.confined_bind (confined_locate hfunction s) fun found s => ?_
  rcases found with - | ⟨id, record, token⟩
  · exact Attempt.confined_pure _ s
  · exact confined_selectRule e id record token (hmetadata _) s

theorem confined_readLocals (subject : Subject) (body : List UInt8)
    (hmetadata : Q (.metadata subject.record.module)) (s : EngineState) :
    (readLocals subject body).run.Confined Q R s := by
  refine Attempt.confined_bind (Attempt.confined_mk _ s) fun header s => ?_
  split
  · exact Attempt.confined_pure _ s
  · refine Attempt.confined_bind (confined_demand hmetadata _ s) fun view s => ?_
    refine Attempt.confined_bind (Attempt.confined_mk _ s) fun locals s => ?_
    exact Attempt.confined_pure _ s

theorem confined_readMethod (subject : Subject)
    (hbody : Q (.readBody subject.record.module subject.props.token))
    (hmetadata : Q (.metadata subject.record.module)) (s : EngineState) :
    (readMethod subject).run.Confined Q R s :=
  Attempt.confined_bind (confined_demand hbody _ s) fun body s =>
    confined_readLocals subject body hmetadata s

/-- A method is instrumented with rows of its own module, which are put in the cache of the
record it was found with. -/
theorem confined_probe_tokens (limit : Nat) (request : ProbeRequest) (helper : HelperRef)
    {m : ModuleId} {id : CacheId} (hmetadata : Q (.metadata m))
    (hdefine : ∀ row, Q (.define m row))
    (hrecord : ∀ s s', EngineState.Records s s' → R s s') (s : EngineState) :
    (probe limit request (helper.tokens (moduleAccess m id))).run.Confined Q R s :=
  (closed_probe_tokens Attempt.closed_confined
    (fun row => ⟨rfl, fun s => confined_token hdefine hrecord row s⟩) helper
    ⟨rfl, fun _ => ⟨hmetadata, fun _ _ => trivial⟩⟩ limit request).2 s

theorem confined_check (e : Engine) (subject : Subject) (body : List UInt8)
    (hmetadata : Q (.metadata subject.record.module)) (s : EngineState) :
    (e.check subject body).run.Confined Q R s := by
  unfold check
  split
  · exact Attempt.confined_pure _ s
  · refine Attempt.confined_bind (Attempt.confined_mk _ s) fun _ s => ?_
    exact Attempt.confined_pure _ s
  · refine Attempt.confined_bind (confined_demand hmetadata _ s) fun view s => ?_
    refine Attempt.confined_bind (Attempt.confined_mk _ s) fun _ s => ?_
    exact Attempt.confined_pure _ s

/-- A module is recorded with the rules that may apply to its methods. -/
theorem confined_loadModule (e : Engine) (m : ModuleId) (hinfo : Q (.moduleInfo m))
    (hopen : Q (.openMetadata m)) (henroll : ∀ s info, R s (e.enrolled s m info))
    (s : EngineState) : (e.loadModule m).run.Confined Q R s := by
  refine Attempt.confined_bind (confined_demand hinfo _ s) fun info s => ?_
  dsimp only
  split
  · exact ⟨henroll s info, trivial⟩
  · refine Attempt.confined_bind (confined_demand hopen _ s) fun _ s => ?_
    exact ⟨henroll s info, trivial⟩

end Parts

/-! ### The ways it can go -/

section Ways

variable {τ : Type}

/-- A body is installed only if the lock can be had and the engine was not stopped, and then
the answer decides. -/
inductive Installing (h : Host τ) (deliver : Event → World EngineState τ → World EngineState τ)
    (s : Subject) (body : List UInt8) (w : World EngineState τ) :
    Except Error (Option MethodOutcome) → Course EngineState τ → World EngineState τ → Prop
  | locked {err : Error} : Installing h deliver s body w (.error err) .empty w
  | stopped : w.engine.tornDown = true → Installing h deliver s body w (.ok none) .empty w
  | refused {err : Error} : w.engine.tornDown = false →
      (exchange h deliver (.install s.record.module s.props.token body) w).1 = .error err →
      Installing h deliver s body w (.error err)
        (asking h deliver (.install s.record.module s.props.token body) w)
        (exchange h deliver (.install s.record.module s.props.token body) w).2
  | installed : w.engine.tornDown = false →
      (exchange h deliver (.install s.record.module s.props.token body) w).1 = .ok () →
      Installing h deliver s body w (.ok (some .instrumented))
        (asking h deliver (.install s.record.module s.props.token body) w)
        (exchange h deliver (.install s.record.module s.props.token body) w).2

/-- What becomes of a method that was claimed. -/
inductive Instrumenting (h : Host τ) (deliver : Event → World EngineState τ → World EngineState τ)
    (e : Engine) (s : Subject) (rule : Rule) (w : World EngineState τ) :
    Except Error (Option MethodOutcome) → Course EngineState τ → World EngineState τ → Prop
  | unread {err c w'} : (readMethod s).run.Runs h deliver w (.error err) c w' →
      Instrumenting h deliver e s rule w (.error err) c w'
  | unprobed {data locals c₁ w₁ reason c₂ w'} :
      (readMethod s).run.Runs h deliver w (.ok (data, locals)) c₁ w₁ →
      (e.probing s rule data locals).run.Runs h deliver w₁ (.error reason) c₂ w' →
      Instrumenting h deliver e s rule w
        (if reason.isDecline then .ok (some .declined) else .error reason) (c₁ ++ c₂) w'
  | recognised {data locals c₁ w₁ c₂ w'} :
      (readMethod s).run.Runs h deliver w (.ok (data, locals)) c₁ w₁ →
      (e.probing s rule data locals).run.Runs h deliver w₁ (.ok .alreadyProbed) c₂ w' →
      Instrumenting h deliver e s rule w (.ok (some .passedThrough)) (c₁ ++ c₂) w'
  | rejected {data locals c₁ w₁ method c₂ w₂ err c₃ w'} :
      (readMethod s).run.Runs h deliver w (.ok (data, locals)) c₁ w₁ →
      (e.probing s rule data locals).run.Runs h deliver w₁ (.ok (.probed method)) c₂ w₂ →
      (e.check s method.body).run.Runs h deliver w₂ (.error err) c₃ w' →
      Instrumenting h deliver e s rule w (.error err) (c₁ ++ (c₂ ++ c₃)) w'
  | accepted {data locals c₁ w₁ method c₂ w₂ c₃ w₃ r c₄ w'} :
      (readMethod s).run.Runs h deliver w (.ok (data, locals)) c₁ w₁ →
      (e.probing s rule data locals).run.Runs h deliver w₁ (.ok (.probed method)) c₂ w₂ →
      (e.check s method.body).run.Runs h deliver w₂ (.ok ()) c₃ w₃ →
      Installing h deliver s method.body w₃ r c₄ w' →
      Instrumenting h deliver e s rule w r (c₁ ++ (c₂ ++ (c₃ ++ c₄))) w'

/-- The claim that is made with what was chosen, and whether it succeeds. -/
def claimOf (state : EngineState) :
    Except Error (Option (Option (Subject × Rule))) → Option (Subject × Bool)
  | .ok (some (some (s, rule))) => some (s, (state.claim s.id s.props.token rule.integration).1)
  | _ => none

/-- The ways a compilation can go, by the claim that it makes. -/
inductive Compiling (h : Host τ) (deliver : Event → World EngineState τ → World EngineState τ)
    (e : Engine) (function : FunctionId) (w : World EngineState τ) :
    Option (Subject × Bool) → Except Error (Option MethodOutcome) → Course EngineState τ →
      World EngineState τ → Prop
  | failed {err c w'} : (e.choose function).run.Runs h deliver w (.error err) c w' →
      Compiling h deliver e function w none (.error err) c w'
  | dismissed {c w'} : (e.choose function).run.Runs h deliver w (.ok none) c w' →
      Compiling h deliver e function w none (.ok none) c w'
  | unruled {c w'} : (e.choose function).run.Runs h deliver w (.ok (some none)) c w' →
      Compiling h deliver e function w none (.ok (some .passedThrough)) c w'
  | lost {s rule c w₁ state} :
      (e.choose function).run.Runs h deliver w (.ok (some (some (s, rule)))) c w₁ →
      w₁.engine.claim s.id s.props.token rule.integration = (false, state) →
      Compiling h deliver e function w (some (s, false)) (.ok (some .passedThrough)) c
        { w₁ with engine := state }
  | won {s rule c₁ w₁ state r c₂ w'} :
      (e.choose function).run.Runs h deliver w (.ok (some (some (s, rule)))) c₁ w₁ →
      w₁.engine.claim s.id s.props.token rule.integration = (true, state) →
      Instrumenting h deliver e s rule { w₁ with engine := state } r c₂ w' →
      Compiling h deliver e function w (some (s, true)) r (c₁ ++ c₂) w'

variable {h : Host τ} {deliver : Event → World EngineState τ → World EngineState τ}
  {w w' : World EngineState τ} {r : Except Error (Option MethodOutcome)} {c : Course EngineState τ}

/-- Going on with the answer to a question. -/
theorem runs_demand_bind {α β : Type} {q : Query} {answer : q.Answer → Except Error α}
    {f : α → EngineAttempt β} {r : Except Error β} :
    (demand q answer >>= f).run.Runs h deliver w r c w' ↔
      (∃ e, answer (exchange h deliver q w).1 = .error e ∧ r = .error e ∧
        c = asking h deliver q w ∧ w' = (exchange h deliver q w).2) ∨
      ∃ a c', answer (exchange h deliver q w).1 = .ok a ∧
        (f a).run.Runs h deliver (exchange h deliver q w).2 r c' w' ∧
        c = asking h deliver q w ++ c' := by
  show (Proc.bind (query q) fun a => (ExceptT.mk (pure (answer a)) >>= f).run).Runs h deliver w r
    c w' ↔ _
  rw [Proc.runs_bind]
  constructor
  · rintro ⟨a, c₁, w₁, c₂, hquery, hrest, rfl⟩
    obtain ⟨rfl, rfl, rfl⟩ := Proc.runs_query.mp hquery
    rcases Attempt.runs_mk_bind.mp hrest with ⟨e, he, rfl, rfl, rfl⟩ | ⟨a, ha, hf⟩
    · exact .inl ⟨e, he, rfl, Course.append_empty _, rfl⟩
    · exact .inr ⟨a, c₂, ha, hf, rfl⟩
  · have hquery : (query q).Runs h deliver w (exchange h deliver q w).1 (asking h deliver q w)
        (exchange h deliver q w).2 := Proc.runs_query.mpr ⟨rfl, rfl, rfl⟩
    rintro (⟨e, he, rfl, rfl, rfl⟩ | ⟨a, c', ha, hf, rfl⟩)
    · refine ⟨_, _, _, .empty, hquery, ?_, (Course.append_empty _).symm⟩
      exact Attempt.runs_mk_bind.mpr (.inl ⟨e, he, rfl, rfl, rfl⟩)
    · exact ⟨_, _, _, c', hquery, Attempt.runs_mk_bind.mpr (.inr ⟨a, ha, hf⟩), rfl⟩

/-- What is known of a method that a rule was chosen for: it was looked up in a record that was
live once the runtime had said where the function comes from, and the rule is the first that
applies to it by the metadata as it was then. -/
theorem exists_of_chosen {e : Engine} {function : FunctionId} {s : Subject} {rule : Rule}
    (hruns : (e.choose function).run.Runs h deliver w (.ok (some (some (s, rule)))) c w') :
    ∃ info w₁ view, exchange h deliver (.functionInfo function) w = (.ok info, w₁) ∧
      w₁.engine.find? info.module = some (s.id, s.record) ∧
      exchange h deliver (.metadata s.record.module) w₁ = (view, w') ∧
      view.methodProps info.token = .ok s.props ∧
      MethodDescriptor.resolve view s.props s.record.identity = .ok s.descriptor ∧
      Rule.select s.record.candidates
        { typeToken := s.props.typeToken, methodToken := s.props.token, descriptor := s.descriptor,
          hierarchy := view.hierarchy } = some rule ∧
      c = asking h deliver (.functionInfo function) w ++
        asking h deliver (.metadata s.record.module) w₁ := by
  rcases Attempt.runs_bind.mp hruns with ⟨_, ⟨⟩, -⟩ | ⟨found, c₁, w₁, c₂, hlocate, hselect, rfl⟩
  rcases found with - | ⟨id, record, token⟩
  · obtain ⟨⟨⟩, -⟩ := Attempt.runs_pure.mp hselect
  -- the function was located in a record that is live
  rcases runs_demand_bind.mp hlocate with ⟨_, -, ⟨⟩, -⟩ | ⟨info, c₃, hinfo, hlook, rfl⟩
  have hlook := Attempt.runs_get_bind.mp hlook
  split at hlook
  · next id' record' hfind =>
    split at hlook
    · obtain ⟨⟨⟩, -⟩ := Attempt.runs_pure.mp hlook
    obtain ⟨⟨⟩, rfl, rfl⟩ := Attempt.runs_pure.mp hlook
    -- a rule was selected for the method, by the metadata as it was then
    rcases runs_demand_bind.mp hselect with ⟨_, -, ⟨⟩, -⟩ | ⟨view, c₄, hview, hrest, rfl⟩
    rcases Attempt.runs_mk_bind.mp hrest with ⟨_, -, ⟨⟩, -⟩ | ⟨props, hprops, hrest⟩
    split at hrest
    · obtain ⟨⟨⟩, -⟩ := Attempt.runs_pure.mp hrest
    rcases Attempt.runs_mk_bind.mp hrest with ⟨_, -, ⟨⟩, -⟩ | ⟨descriptor, hdescriptor, hrest⟩
    obtain ⟨hresult, rfl, rfl⟩ := Attempt.runs_pure.mp hrest
    obtain ⟨rule', hselected, heq⟩ := Option.map_eq_some_iff.mp (Option.some.inj
      (Except.ok.inj hresult)).symm
    obtain ⟨rfl, rfl⟩ := Prod.mk.inj heq
    obtain rfl := Except.ok.inj hview
    rw [Course.append_empty, Course.append_empty]
    exact ⟨info, _, _, Prod.ext hinfo rfl, hfind, rfl, hprops, hdescriptor, hselected, rfl⟩
  · obtain ⟨⟨⟩, -⟩ := Attempt.runs_pure.mp hlook

/-- The body of a method is the answer to the first question. -/
theorem fst_of_readLocals {s : Subject} {body data locals : List UInt8}
    (hruns : (readLocals s body).run.Runs h deliver w (.ok (data, locals)) c w') : data = body := by
  rcases Attempt.runs_mk_bind.mp hruns with ⟨_, -, ⟨⟩, -⟩ | ⟨header, -, hrest⟩
  split at hrest
  · obtain ⟨⟨⟩, -⟩ := Attempt.runs_pure.mp hrest
    rfl
  · rcases runs_demand_bind.mp hrest with ⟨_, -, ⟨⟩, -⟩ | ⟨view, c', -, hrest, -⟩
    rcases Attempt.runs_mk_bind.mp hrest with ⟨_, -, ⟨⟩, -⟩ | ⟨_, -, hrest⟩
    obtain ⟨⟨⟩, -⟩ := Attempt.runs_pure.mp hrest
    rfl

theorem installing_of_runs {s : Subject} {body : List UInt8}
    (hruns : (install s body).run.Runs h deliver w r c w') :
    Installing h deliver s body w r c w' := by
  rcases Attempt.runs_mk_bind.mp (Attempt.runs_get_bind.mp hruns) with
    ⟨e, -, rfl, rfl, rfl⟩ | ⟨_, -, hrest⟩
  · exact .locked
  split at hrest
  · next hdown =>
    obtain ⟨rfl, rfl, rfl⟩ := Attempt.runs_pure.mp hrest
    exact .stopped hdown
  · next hdown =>
    have hup : w.engine.tornDown = false := Bool.not_eq_true _ ▸ hdown
    rcases runs_demand_bind.mp hrest with ⟨e, he, rfl, rfl, rfl⟩ | ⟨_, c', ha, hdone, rfl⟩
    · exact .refused hup he
    · obtain ⟨rfl, rfl, rfl⟩ := Attempt.runs_pure.mp hdone
      rw [Course.append_empty]
      exact .installed hup ha

theorem instrumenting_of_runs {e : Engine} {s : Subject} {rule : Rule}
    (hruns : (e.instrument s rule).run.Runs h deliver w r c w') :
    Instrumenting h deliver e s rule w r c w' := by
  rcases Attempt.runs_bind.mp hruns with ⟨err, rfl, hread⟩ | ⟨⟨data, locals⟩, c₁, w₁, c₂, hread,
    hrest, rfl⟩
  · exact .unread hread
  rcases Attempt.runs_bind.mp hrest with ⟨err, rfl, hlift⟩ | ⟨attempt, c₃, w₂, c₄, hlift, hrest,
    rfl⟩
  · obtain ⟨_, ⟨⟩, -⟩ := Attempt.runs_lift.mp hlift
  -- probing was attempted, so that its failure could be looked at
  obtain ⟨_, ⟨⟩, hprobe⟩ := Attempt.runs_lift.mp hlift
  rcases attempt with reason | ⟨method | -⟩
  · have hrest : (if reason.isDecline then pure (some MethodOutcome.declined) else throw reason :
        EngineAttempt (Option MethodOutcome)).run.Runs h deliver w₂ r c₄ w' := hrest
    have hresult := Instrumenting.unprobed hread hprobe
    split at hrest
    · next hdecline =>
      obtain ⟨rfl, rfl, rfl⟩ := Attempt.runs_pure.mp hrest
      rw [if_pos hdecline] at hresult
      rw [Course.append_empty]
      exact hresult
    · next hdecline =>
      obtain ⟨rfl, rfl, rfl⟩ := Attempt.runs_mk.mp hrest
      rw [if_neg hdecline] at hresult
      rw [Course.append_empty]
      exact hresult
  · rcases Attempt.runs_bind.mp hrest with ⟨err, rfl, hcheck⟩ | ⟨_, c₅, w₃, c₆, hcheck, hinstall,
      rfl⟩
    · exact .rejected hread hprobe hcheck
    · exact .accepted hread hprobe hcheck (installing_of_runs hinstall)
  · obtain ⟨rfl, rfl, rfl⟩ := Attempt.runs_pure.mp hrest
    rw [Course.append_empty]
    exact .recognised hread hprobe

theorem runs_claim_bind {β : Type} {s : Subject} {rule : Rule} {f : Bool → EngineAttempt β}
    {r : Except Error β} :
    (claim s rule >>= f).run.Runs h deliver w r c w' ↔
      (f (w.engine.claim s.id s.props.token rule.integration).1).run.Runs h deliver
        { w with engine := (w.engine.claim s.id s.props.token rule.integration).2 } r c w' :=
  Iff.rfl

/-- Every compilation goes one of these ways, and makes the claim that its first part leads
to. -/
theorem compiling_of_runs {e : Engine} {function : FunctionId}
    (hruns : (e.compile function).run.Runs h deliver w r c w') :
    Compiling h deliver e function w
      (claimOf ((e.choose function).run.run h deliver w).2.engine
        ((e.choose function).run.run h deliver w).1) r c w' := by
  rw [compile_eq] at hruns
  rcases Attempt.runs_bind.mp hruns with ⟨err, rfl, hchoose⟩ | ⟨chosen, c₁, w₁, c₂, hchoose, hrest,
    rfl⟩
  · rw [hchoose.1]
    exact .failed hchoose
  rw [hchoose.1]
  rcases chosen with - | - | ⟨s, rule⟩
  · obtain ⟨rfl, rfl, rfl⟩ := Attempt.runs_pure.mp hrest
    rw [Course.append_empty]
    exact .dismissed hchoose
  · obtain ⟨rfl, rfl, rfl⟩ := Attempt.runs_pure.mp hrest
    rw [Course.append_empty]
    exact .unruled hchoose
  · have hrest := runs_claim_bind.mp hrest
    rcases hclaim : w₁.engine.claim s.id s.props.token rule.integration with ⟨won, state⟩
    show Compiling h deliver e function w
      (some (s, (w₁.engine.claim s.id s.props.token rule.integration).1)) r (c₁ ++ c₂) w'
    rw [hclaim] at hrest ⊢
    cases won with
    | true => exact .won hchoose hclaim (instrumenting_of_runs hrest)
    | false =>
      obtain ⟨rfl, rfl, rfl⟩ := Attempt.runs_pure.mp hrest
      rw [Course.append_empty]
      exact .lost hchoose hclaim

end Ways

end Engine

end CilProbe
