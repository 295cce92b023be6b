/-
CilProbe/Proofs/Engine/Progress.lean

Compilations that get through.  Against a runtime that defines every row it is asked for
(`Serving`) the tokens for a supported method can be had, so it is instrumented, and what comes
out of that passes the check of its shape: a compilation that has read a supported body gets as
far as asking the runtime to install another (`installing_of_read`).

Nothing is in its way but the claim, and the claim goes with the record.  A module that is
loaded anew has a record without claims (`hasClaim_enroll`), while a compilation under way goes
on with what it read.  So the condition of `installed_once` that a method is left alone while
the metadata of its module is looked at cannot be left out: without it there can be two bodies
(`instrumented_twice_by_reload`).
-/
import CilProbe.Proofs.Engine.Choice
import CilProbe.Proofs.Engine.Claims
import CilProbe.Proofs.Probe.Supported

namespace CilProbe

open Engine Proc

/-! ### Engines at work -/

/-- An engine that was not stopped and can write to all modules. -/
structure EngineState.Working (s : EngineState) : Prop where
  running : s.tornDown = false
  unlocked : ∀ c, (s.emitter.cache c).lockBroken = false

namespace EngineState

theorem working_fresh (retryLimit : Nat) : (fresh retryLimit).Working where
  running := rfl
  unlocked c := by
    show (((#[] : Array TokenCache)[c]?).getD _).lockBroken = false
    rw [Array.getElem?_empty]
    rfl

namespace Working

variable {s : EngineState} (hs : s.Working)
include hs

/-- Whatever leaves the token caches alone. -/
theorem of_emitter {s' : EngineState} (hdown : s'.tornDown = s.tornDown)
    (hemitter : s'.emitter = s.emitter) : s'.Working where
  running := hdown.trans hs.running
  unlocked := hemitter.symm ▸ hs.unlocked

theorem records {s' : EngineState} (hrecords : s.Records s') : s'.Working := by
  obtain ⟨id, row, rfl⟩ := hrecords
  refine ⟨hs.running, fun c => ?_⟩
  show ((s.emitter.modifyCache id _).cache c).lockBroken = false
  rw [Emitter.cache_modifyCache]
  split
  · exact hs.unlocked _
  · exact hs.unlocked c

theorem enroll (m : ModuleId) (info : ModuleInfo) (candidates : List Rule) :
    (Engine.enroll s m info candidates).Working := by
  have hup : ¬ s.tornDown = true := Bool.not_eq_true _ ▸ hs.running
  rw [enroll_eq, if_neg hup]
  refine ⟨hs.running, fun c => ?_⟩
  show ((s.emitter.cacheOf m).2.cache c).lockBroken = false
  unfold Emitter.cacheOf
  split
  · exact hs.unlocked c
  · -- a cache that was made just now has its lock whole
    show (((s.emitter.caches.push _)[c]?).getD _).lockBroken = false
    rw [Array.getElem?_push]
    split
    · rfl
    · exact hs.unlocked c

end Working

/-- A module that was recorded just now is found in a new record. -/
theorem find?_enroll {s : EngineState} (hs : s.Working) (m : ModuleId) (info : ModuleInfo)
    (candidates : List Rule) : (Engine.enroll s m info candidates).find? m =
      some (s.records.size, recordOf m info candidates (s.emitter.cacheOf m).1) := by
  have hup : ¬ s.tornDown = true := Bool.not_eq_true _ ▸ hs.running
  exact find?_eq_some.mpr ⟨(live_enroll hup m info candidates m).trans (if_pos rfl),
    record?_enroll hup m info candidates⟩

/-- Nothing is claimed in a record that was made just now, whatever was in the one before. -/
theorem hasClaim_enroll {s : EngineState} (hs : s.Working) (m : ModuleId) (info : ModuleInfo)
    (candidates : List Rule) (method : Token) :
    (Engine.enroll s m info candidates).hasClaim s.records.size method = false := by
  unfold hasClaim
  have hup : ¬ s.tornDown = true := Bool.not_eq_true _ ▸ hs.running
  rw [record?_enroll hup]
  exact Std.ExtHashMap.contains_empty

end EngineState

/-! ### Runtimes that serve -/

/-- The signature of the exit helper can be written if the type of the value can. -/
theorem HelperRef.exists_encode_exitSignature {ret : Option TypeSig}
    (hret : ∀ t ∈ ret, t.write.failure = none) :
    ∃ blob, (HelperRef.exitSignature ret).encode = .ok blob := by
  refine Written.exists_toExcept_iff.mpr ?_
  rcases ret with - | t
  · rfl
  have harity : (Written.count (exitSignature (some t)).arity).failure = none := by
    show (Written.count (TypeSig.countParams (t :: _))).failure = none
    rw [TypeSig.countParams_cons]
    split
    · rfl
    · rfl
  unfold MethodSig.write
  simp only [Written.failure_append_eq_none]
  refine ⟨⟨⟨⟨rfl, ?_⟩, harity⟩, rfl⟩, ?_⟩
  · show (if MethodSig.hasMark 0 MethodSig.genericMark then _ else Written.ok []).failure = none
    rw [if_neg (by decide)]
    rfl
  show (TypeSig.writeAll (t :: [.primitive .object, .primitive .i8])).failure = none
  rw [TypeSig.writeAll, Written.failure_append_eq_none]
  exact ⟨hret t rfl, rfl⟩

section Serving

variable {τ : Type} {h : Host τ} {deliver : Event → World EngineState τ → World EngineState τ}
  {m : ModuleId} {I : World EngineState τ → Prop}

/-- In worlds of some kind the engine is at work, and the runtime defines every row of a module
and knows its core library; the world is of that kind again, and stays so when the row is put in
the token cache. -/
structure Host.Serving (h : Host τ)
    (deliver : Event → World EngineState τ → World EngineState τ) (m : ModuleId)
    (I : World EngineState τ → Prop) : Prop where
  working {w} : I w → w.engine.Working
  recorded {w s} : I w → w.engine.Records s → I { w with engine := s }
  defines {w} (row : MetadataRow) : I w →
    ∃ token w', exchange h deliver (.define m row) w = (.ok token, w') ∧ I w'
  core {w} : I w → ∃ view token w', exchange h deliver (.metadata m) w = (view, w') ∧
    view.coreLibrary = .ok token ∧ I w'

/-- A question that was answered. -/
theorem run_demand {α : Type} {q : Query} (answer : q.Answer → Except Error α) {a : q.Answer}
    {w w' : World EngineState τ} (hasked : exchange h deliver q w = (a, w')) :
    (Attempt.within h deliver (demand q answer)).run.run w = (answer a, w') := by
  show (answer (exchange h deliver q w).1, (exchange h deliver q w).2) = _
  rw [hasked]

/-- The body of a method is read, and then the signature of its locals. -/
theorem run_readMethod {s : Subject} {data locals : List UInt8} {body : MethodBody} {token : Token}
    {view : MetadataView} {w w₁ w₂ : World EngineState τ}
    (hdata : exchange h deliver (.readBody s.record.module s.props.token) w = (.ok data, w₁))
    (hbody : MethodBody.read data = .ok body) (htoken : body.localSignature? = some token)
    (hview : exchange h deliver (.metadata s.record.module) w₁ = (view, w₂))
    (hlocals : view.standAloneSignature token = .ok locals) :
    (readMethod s).run.run h deliver w = (.ok (data, locals), w₂) := by
  show (Attempt.within h deliver (readMethod s)).run.run w = _
  unfold readMethod metadata known
  rw [Attempt.within_bind, attempt_bind_of_ok (run_demand id hdata), Attempt.within_bind,
    Attempt.within_mk]
  refine attempt_mk_bind_eq_ok.mpr ⟨body, hbody, ?_⟩
  rw [htoken]
  dsimp only
  rw [Attempt.within_bind, attempt_bind_of_ok (run_demand .ok hview), hlocals]
  rfl

/-- An engine at work that is allowed to installs a body. -/
theorem run_install {s : Subject} {new : List UInt8} {w w' : World EngineState τ}
    (hw : w.engine.Working)
    (hinstalled : exchange h deliver (.install s.record.module s.props.token new) w =
      (.ok (), w')) :
    (install s new).run.run h deliver w = (.ok (some .instrumented), w') := by
  have hlock : (w.engine.emitter.cache s.record.cache).lock = .ok () := by
    rw [TokenCache.lock, hw.unlocked]
    rfl
  have hruns : (install s new).run.Runs h deliver w (.ok (some .instrumented))
      (asking h deliver (.install s.record.module s.props.token new) w ++ .empty) w' := by
    refine Attempt.runs_get_bind.mpr (Attempt.runs_mk_bind.mpr (.inr ⟨(), hlock, ?_⟩))
    rw [hw.running, if_neg Bool.false_ne_true]
    obtain rfl := congrArg Prod.snd hinstalled
    exact runs_demand_bind.mpr (.inr ⟨(), .empty, congrArg Prod.fst hinstalled, ⟨rfl, rfl⟩, rfl⟩)
  exact hruns.1

/-- A module that rules are about is recorded if its metadata can be had. -/
theorem run_loaded {e : Engine} {m : ModuleId} {info : ModuleInfo} {w w₁ w₂ : World EngineState τ}
    (hup : w.engine.tornDown = false)
    (hcandidates : e.registry.candidatesFor ⟨info.assemblyName, info.assemblyVersion⟩ ≠ [])
    (hinfo : exchange h deliver (.moduleInfo m) (counted (.moduleLoaded m .success) w) =
      (.ok info, w₁))
    (hopen : exchange h deliver (.openMetadata m) w₁ = (.ok (), w₂)) :
    ((e.handle (.moduleLoaded m .success)).run h deliver w).2 =
      { w₂ with engine := e.enrolled w₂.engine m info } := by
  have hload : (e.loadModule m).run.run h deliver (counted (.moduleLoaded m .success) w) =
      (.ok (), { w₂ with engine := e.enrolled w₂.engine m info }) := by
    show (Attempt.within h deliver (e.loadModule m)).run.run _ = _
    unfold loadModule
    rw [Attempt.within_bind, attempt_bind_of_ok (run_demand id hinfo)]
    dsimp only
    rw [if_neg (by simpa using hcandidates), Attempt.within_bind,
      attempt_bind_of_ok (run_demand id hopen)]
    rfl
  obtain ⟨c, w', hact, hhandle⟩ := handle_of_running e h deliver (.moduleLoaded m .success) hup
  obtain ⟨r, c₁, w₃, c₂, hload', ⟨hdone, -⟩, -⟩ := Proc.runs_bind.mp hact
  obtain ⟨rfl, rfl⟩ := Prod.mk.inj (hload.symm.trans hload'.1)
  rw [hhandle.1]
  exact (congrArg Prod.snd hdone).symm

/-- A compilation of a method that nobody has claimed is counted with what becomes of the method. -/
theorem run_compiling {e : Engine} {function : FunctionId} {mayBlock : Bool} {s : Subject}
    {rule : Rule} {c : Course EngineState τ} {w w₁ w' : World EngineState τ}
    (hup : w.engine.tornDown = false)
    (hchosen : (e.choose function).run.Runs h deliver (counted (.compiling function mayBlock) w)
      (.ok (some (some (s, rule)))) c w₁)
    (hunclaimed : w₁.engine.hasClaim s.id s.props.token = false)
    (hinstrumented : (e.instrument s rule).run.run h deliver
      { w₁ with engine := (w₁.engine.claim s.id s.props.token rule.integration).2 } =
        (.ok (some .instrumented), w')) :
    ((e.handle (.compiling function mayBlock)).run h deliver w).2 =
      { w' with engine := w'.engine.countOutcome .instrumented } := by
  have hpursued : (e.pursue (some (some (s, rule)))).run.run h deliver w₁ =
      (.ok (some .instrumented), w') := by
    refine (runs_claim_bind.mpr ⟨?_, rfl⟩).1
    rw [EngineState.claim_fst, hunclaimed]
    exact hinstrumented
  have hcompile := Attempt.runs_bind.mpr (.inr ⟨_, c, w₁, _, hchosen, ⟨hpursued, rfl⟩, rfl⟩)
  rw [← compile_eq] at hcompile
  obtain ⟨c', w₂, hact, hhandle⟩ := handle_of_running e h deliver (.compiling function mayBlock) hup
  obtain ⟨r, w₃, hcompile', rfl⟩ := runs_of_act hact
  obtain ⟨rfl, -, rfl⟩ := Runs.unique hcompile' hcompile
  exact congrArg Prod.snd hhandle.1

section Tokens

variable (hserving : h.Serving deliver m I)
include hserving

/-- A row that is not in the cache is defined by the first attempt. -/
theorem exists_defineWithin (id : CacheId) (row : MetadataRow) (retries : Nat)
    {w : World EngineState τ} (hw : I w) :
    ∃ token w', ((moduleAccess m id).defineWithin row retries 0).run h deliver w =
      (.ok (token, 1), w') ∧ I w' := by
  obtain ⟨token, w', hdefine, hw'⟩ := hserving.defines row hw
  refine ⟨token, w', ?_, hw'⟩
  cases retries with
  | zero =>
    show (let (a, w) := exchange h deliver (.define m row) w
      (.done (a.map _) : Proc EngineState _).run h deliver w) = _
    rw [hdefine]
    rfl
  | succ retries =>
    show (let (a, w) := exchange h deliver (.define m row) w
      (Proc.bind (.done a) _).run h deliver w) = _
    rw [hdefine]
    rfl

theorem answersIn_token (id : CacheId) (row : MetadataRow) :
    AnswersIn I (Attempt.within h deliver ((moduleAccess m id).token row)) := by
  intro w hw
  rcases hrow : (w.engine.emitter.cache id).get? row with - | token
  · obtain ⟨token, w', hdefine, hw'⟩ :=
      exists_defineWithin hserving id row (w.engine.emitter.cache id).retryLimit hw
    refine ⟨token, _, ?_, hserving.recorded hw' ⟨id, ⟨row, token, 1⟩, rfl⟩, trivial⟩
    show ((moduleAccess m id).token row).run.run h deliver w = _
    have hlock : (w.engine.emitter.cache id).lock = .ok () := by
      rw [TokenCache.lock, (hserving.working hw).unlocked id]
      rfl
    rw [token_eq, Proc.run, hrow, hlock]
    show (Proc.bind _ _).run h deliver w = _
    rw [Proc.run_bind, hdefine]
    rfl
  · exact ⟨token, w, (runs_token_of_cached hrow).1, hw, trivial⟩

theorem answersIn_methodToken (id : CacheId) (helper : HelperRef) (name : String)
    {signature : MethodSig} {blob : List UInt8} (hblob : signature.encode = .ok blob) :
    AnswersIn I (Attempt.within h deliver
      (helper.methodToken (moduleAccess m id) name signature)) := by
  have htype : AnswersIn I (Attempt.within h deliver (helper.typeToken (moduleAccess m id))) := by
    unfold HelperRef.typeToken
    rw [Attempt.within_bind]
    exact (answersIn_token hserving id _).bind fun scope => answersIn_token hserving id _
  unfold HelperRef.methodToken
  simp only [Attempt.within_bind, Attempt.within_mk]
  exact htype.bind fun parent => .known_bind hblob (answersIn_token hserving id _)

theorem answersIn_objectToken (id : CacheId) :
    AnswersIn I (Attempt.within h deliver (HelperRef.objectToken (moduleAccess m id))) := by
  unfold HelperRef.objectToken
  rw [Attempt.within_bind]
  refine AnswersIn.bind (fun w hw => ?_) fun scope => answersIn_token hserving id _
  obtain ⟨view, token, w', hview, htoken, hw'⟩ := hserving.core hw
  refine ⟨token, w', ?_, hw', trivial⟩
  show (let (view, w) := exchange h deliver (.metadata m) w
    (.done view.coreLibrary : Proc EngineState _).run h deliver w) = _
  rw [hview]
  show (view.coreLibrary, w') = _
  rw [htoken]

/-- All tokens can be had. -/
theorem serves_tokens (id : CacheId) (helper : HelperRef) :
    ((helper.tokens (moduleAccess m id)).within h deliver).Serves I where
  enter := by
    obtain ⟨blob, hblob⟩ : ∃ blob, HelperRef.enterSignature.encode = .ok blob := ⟨_, rfl⟩
    exact answersIn_methodToken hserving id helper _ hblob
  exit {ret} hret := by
    obtain ⟨blob, hblob⟩ := HelperRef.exists_encode_exitSignature hret
    exact answersIn_methodToken hserving id helper _ hblob
  exceptionType := answersIn_objectToken hserving id
  localSignature blob := answersIn_token hserving id _

end Tokens

/-! ### Getting through -/

section Method

variable {e : Engine} {s : Subject} {rule : Rule} {data locals : List UInt8} {body : MethodBody}
  {bytes : List UInt8} {code : List (Instruction Offset)} {slots : Locals}
  {w w₁ w' : World EngineState τ}

/-- A supported method that does not start with the entry probe is instrumented, and an engine
that looks at no more than the shape of what it made has nothing against it. -/
theorem exists_checked (hserving : h.Serving deliver s.record.module I) (he : e.verify ≠ .full)
    (hw : I w)
    (hsupported : (request s rule data locals).Supported body bytes code slots)
    (hlimit : (code.countP fun i => i.opcode.isBranch) +
      (if rule.policy.exit then code.countP fun i => i.opcode = Opcode.ret else 0) < e.passLimit)
    (hfresh : ∀ enter, isProbed code s.props.token enter = false) :
    ∃ r w₁, (e.probing s rule data locals).run.run h deliver w = (.ok (.probed r), w₁) ∧ I w₁ ∧
      ∀ w, (e.check s r.body).run.run h deliver w = (.ok (), w) := by
  have hsource := serves_tokens hserving s.record.cache rule.helper
  obtain ⟨enter, w₂, henter, hw₂, -⟩ := hsource.enter w hw
  obtain ⟨r, w₁, hprobe, hw₁⟩ :=
    exists_probed_of_supported hsource hsupported hlimit hw₂ henter (hfresh enter)
  refine ⟨r, w₁, ?_, hw₁, fun w => ?_⟩
  · rw [← probe_within] at hprobe
    exact hprobe
  · obtain ⟨body', bytes', code', enter', slot, plan, c, hi⟩ := instrumented_of_probe hprobe
    have hacceptable : Check.Acceptable data body bytes code :=
      ⟨hsupported.readBody, hsupported.readCode, hsupported.decoded,
        Nat.lt_of_lt_of_le hsupported.short (by decide), hsupported.checked⟩
    have hcheck := Check.checkBody_of_instrumented hi hacceptable
    rcases hverify : e.verify with - | - | -
    · unfold Engine.check
      rw [hverify]
      rfl
    · rw [check_of_structural hverify (hcheck _)]
      rfl
    · exact absurd hverify he

/-- A compilation that has read a supported body gets as far as asking the runtime to install
another, whatever became of the record and its claims meanwhile. -/
theorem installing_of_read (hserving : h.Serving deliver s.record.module I)
    (he : e.verify ≠ .full)
    (hread : (readMethod s).run.run h deliver w = (.ok (data, locals), w₁)) (hw₁ : I w₁)
    (hsupported : (request s rule data locals).Supported body bytes code slots)
    (hlimit : (code.countP fun i => i.opcode.isBranch) +
      (if rule.policy.exit then code.countP fun i => i.opcode = Opcode.ret else 0) < e.passLimit)
    (hfresh : ∀ enter, isProbed code s.props.token enter = false) :
    ∃ new w₂, I w₂ ∧ ∀ w',
      exchange h deliver (.install s.record.module s.props.token new) w₂ = (.ok (), w') →
      (e.instrument s rule).run.run h deliver w = (.ok (some .instrumented), w') := by
  obtain ⟨r, w₂, hprobe, hw₂, hcheck⟩ := exists_checked hserving he hw₁ hsupported hlimit hfresh
  refine ⟨r.body, w₂, hw₂, fun w' hinstalled => ?_⟩
  show (Attempt.within h deliver (e.instrument s rule)).run.run w = _
  unfold Engine.instrument
  simp only [Attempt.within_bind]
  have hread : (Attempt.within h deliver (readMethod s)).run.run w = (.ok (data, locals), w₁) :=
    hread
  have hprobe : (Attempt.within h deliver (ExceptT.lift (probe e.passLimit
      (request s rule data locals) (rule.helper.tokens
        (moduleAccess s.record.module s.record.cache))).run)).run.run w₁ =
          (.ok (.ok (.probed r)), w₂) := (Attempt.within_lift h deliver).mpr hprobe
  rw [attempt_bind_of_ok hread, attempt_bind_of_ok hprobe]
  dsimp only
  have hcheck : (Attempt.within h deliver (e.check s r.body)).run.run w₂ = (.ok (), w₂) := hcheck w₂
  rw [Attempt.within_bind, attempt_bind_of_ok hcheck]
  exact run_install (hserving.working hw₂) hinstalled

end Method

end Serving

/-! ### A method that is instrumented twice -/

/-- A method that returns zero and has a local. -/
def localRequest : ProbeRequest :=
  { constantRequest with
    body := [0x03, 0x30, 0x08, 0x00, 0x02, 0x00, 0x00, 0x00, 0x01, 0x00, 0x00, 0x11, 0x16, 0x2A]
    locals := [0x07, 0x01, 0x08] }

/-- Its code. -/
def localCode : List (Instruction Offset) := [⟨0, ⟨0x16⟩, .none⟩, ⟨1, ⟨0x2A⟩, .none⟩]

theorem supported_localRequest :
    localRequest.Supported ⟨2, 12, ⟨0x11000001⟩, 8, true, false, []⟩ [0x16, 0x2A] localCode
      ⟨1, [0x08]⟩ where
  readBody := by decide +kernel
  readCode := by decide +kernel
  nonempty := by decide
  decoded := by decide +kernel
  checked := by decide +kernel
  unfiltered := by decide +kernel
  wrappable := by decide +kernel
  readLocals := by decide +kernel
  localsToken := iff_of_false nofun nofun
  localsCount := by decide
  exit _ := ⟨rfl, ⟨[0x08], rfl⟩, rfl, rfl⟩
  few := by decide
  short := by decide

/-- The module that the method is in. -/
def localFacts : ModuleFacts :=
  { constantFacts with
    view := { constantFacts.view with standAloneSignature := fun _ => .ok localRequest.locals } }

/-- A runtime that keeps what was installed and answers as `restlessHost` does, but for the method
with a local.  It also keeps how far it is: when a body was read for the first time, it waits for
the next look at the metadata of the module, and before it answers that it loads the module anew
and compiles the method for another function. -/
def reloadingHost : Host (Nat × List Installation) where
  interrupts
    | .metadata _, (phase, installs) =>
      if phase = 1 then ([.moduleLoaded 1 .success, .compiling 2 true], (2, installs))
      else ([], (phase, installs))
    | _, t => ([], t)
  answer
    | .metadata _, t => (localFacts.view, t)
    | .readBody m method, (phase, installs) =>
      (.ok (((installs.filter fun i => i.module == m && i.method == method).getLast?.map
        Installation.body).getD localRequest.body), (max phase 1, installs))
    | q, (phase, installs) =>
      let (a, installs) := restlessHost.answer q installs
      (a, (phase, installs))

/-- Its own account of installations. -/
def reloadingLedger : reloadingHost.Ledger where
  installs := Prod.snd
  interrupts q t := by
    cases q with
    | metadata m =>
      show (if t.1 = 1 then _ else _ : List Event × Nat × List Installation).2.2 = t.2
      split
      · rfl
      · rfl
    | _ => rfl
  answer q t := by
    cases q with
    | install => rfl
    | _ => exact (List.append_nil t.2).symm

theorem steady_reloadingHost : reloadingHost.Steady reloadingLedger localFacts where
  info _ := .refl _
  metadata _ := ⟨fun _ => .refl _, fun _ => .refl _, rfl⟩
  asked _ _ hprops := (congrArg MethodProps.token (Except.ok.inj hprops)).symm
  body _ _ _ hlast := below_last hlast localRequest.body

namespace Reloading

variable {deliver : Event → World EngineState (Nat × List Installation) →
  World EngineState (Nat × List Installation)} {s : EngineState} {phase : Nat}
  {installs : List Installation} {id : RecordId} {cache : CacheId}

/-- The record that the module has when it was loaded just now. -/
def record (cache : CacheId) : ModuleRecord := recordOf 1 localFacts.info [constantRule] cache

/-- The method, found in that record. -/
def subject (id : RecordId) (cache : CacheId) : Subject where
  id := id
  record := record cache
  props := ⟨localRequest.method, ⟨0x02000002⟩, "Zero", [0x00, 0x00, 0x08]⟩
  descriptor := constantSubject.descriptor

theorem candidatesFor_constantEngine :
    constantEngine.registry.candidatesFor localFacts.identity = [constantRule] := by
  have hindexed := Registry.indexed_empty.add constantRule
  exact (Registry.candidatesFor_eq hindexed localFacts.identity).trans (by decide)

/-- The rule is chosen for the method where the module is found. -/
theorem runs_choose (function : FunctionId) (hphase : phase ≠ 1)
    (hfind : s.find? 1 = some (id, record cache)) :
    ∃ c, (constantEngine.choose function).run.Runs reloadingHost deliver ⟨s, (phase, installs)⟩
      (.ok (some (some (subject id cache, constantRule)))) c ⟨s, (phase, installs)⟩ := by
  have hview : exchange reloadingHost deliver (.metadata 1) ⟨s, (phase, installs)⟩ =
      (localFacts.view, ⟨s, (phase, installs)⟩) := by
    have hquiet : reloadingHost.interrupts (.metadata 1) (phase, installs) =
        ([], (phase, installs)) := if_neg hphase
    unfold exchange
    rw [hquiet]
    rfl
  have hmight : constantEngine.registry.mightMatch (record cache).candidates "Zero" = true :=
    Registry.mightMatch_of_mem (Registry.indexed_empty.add constantRule) (List.Subset.refl _)
      List.mem_cons_self (by decide)
  have hinfo : exchange reloadingHost deliver (.functionInfo function) ⟨s, (phase, installs)⟩ =
      (.ok ⟨1, localRequest.method⟩, ⟨s, (phase, installs)⟩) := rfl
  obtain ⟨c₁, hlocate⟩ := runs_locate hinfo hfind
  have hresolve : MethodDescriptor.resolve localFacts.view (subject id cache).props
      (record cache).identity = .ok (subject id cache).descriptor := rfl
  obtain ⟨c₂, hselect⟩ := runs_selectRule constantEngine id hview
    (rfl : localFacts.view.methodProps localRequest.method = .ok (subject id cache).props) hresolve
  rw [if_pos hmight] at hselect
  have hrule : Rule.select (record cache).candidates constantSubject = some constantRule := by
    show Rule.select [constantRule] constantSubject = _
    decide
  have hselect : (constantEngine.selectRule id (record cache) localRequest.method).run.Runs
      reloadingHost deliver ⟨s, (phase, installs)⟩
        (.ok (some ((Rule.select (record cache).candidates constantSubject).map
          (subject id cache, ·)))) c₂ ⟨s, (phase, installs)⟩ := hselect
  rw [hrule] at hselect
  exact ⟨_, Attempt.runs_bind.mpr (.inr ⟨_, _, _, _, hlocate, hselect, rfl⟩)⟩

/-- The runtime has loaded the module anew, and keeps these installations. -/
def Reloaded (installs : List Installation)
    (w : World EngineState (Nat × List Installation)) : Prop :=
  w.engine.Working ∧ w.host = (2, installs)

theorem serving_reloadingHost (installs : List Installation) :
    reloadingHost.Serving deliver 1 (Reloaded installs) where
  working hw := hw.1
  recorded hw hrecords := ⟨hw.1.records hrecords, hw.2⟩
  defines {w} row hw := by
    obtain ⟨s, t⟩ := w
    obtain ⟨hs, rfl⟩ := hw
    exact ⟨.ofParts row.table 1, _, rfl, hs, rfl⟩
  core {w} hw := by
    obtain ⟨s, t⟩ := w
    obtain ⟨hs, rfl⟩ := hw
    exact ⟨localFacts.view, ⟨0x23000001⟩, _, rfl, rfl, hs, rfl⟩

/-- The method is claimed by a compilation that found it in its record. -/
def claimed (s : EngineState) (id : RecordId) : EngineState :=
  ((s.countEvent .compilation).claim id localRequest.method constantRule.integration).2

/-- The method is instrumented if it was not claimed before and the body that was read is its
own, whatever was installed in the meantime. -/
theorem exists_installed (hs : s.Working) (hphase : phase ≠ 1)
    (hfind : s.find? 1 = some (id, record cache))
    (hunclaimed : s.hasClaim id localRequest.method = false) (function : FunctionId)
    {w₁ : World EngineState (Nat × List Installation)}
    (hread : (readMethod (subject id cache)).run.run reloadingHost deliver
      ⟨claimed s id, (phase, [])⟩ = (.ok (localRequest.body, localRequest.locals), w₁))
    (hw₁ : Reloaded installs w₁) :
    ∃ new, Reloaded (installs ++ [⟨1, localRequest.method, new⟩])
      ((constantEngine.handle (.compiling function true)).run reloadingHost deliver
        ⟨s, (phase, [])⟩).2 := by
  obtain ⟨c, hchosen⟩ : ∃ c, (constantEngine.choose function).run.Runs reloadingHost deliver
      (counted (.compiling function true) ⟨s, (phase, [])⟩)
        (.ok (some (some (subject id cache, constantRule)))) c _ :=
    runs_choose function hphase hfind
  have hlimit : (localCode.countP fun i => i.opcode.isBranch) +
      (if constantRule.policy.exit then localCode.countP fun i => i.opcode = Opcode.ret else 0) <
        constantEngine.passLimit := by
    show _ < 32
    decide
  have hsupported : (request (subject id cache) constantRule localRequest.body
      localRequest.locals).Supported _ _ localCode _ := supported_localRequest
  obtain ⟨new, ⟨s₂, t⟩, ⟨hs₂, rfl⟩, hinstall⟩ :=
    installing_of_read (serving_reloadingHost installs) (by decide) hread hw₁ hsupported hlimit
      fun _ => rfl
  refine ⟨new, ?_⟩
  rw [run_compiling hs.running hchosen hunclaimed (hinstall _ rfl)]
  exact ⟨hs₂.of_emitter rfl rfl, rfl⟩

/-- Behind a load the module is found, in a record without claims. -/
theorem exists_loaded
    (deliver : Event → World EngineState (Nat × List Installation) →
      World EngineState (Nat × List Installation))
    (phase : Nat) (installs : List Installation) (hs : s.Working) :
    ∃ s' id cache, ((constantEngine.handle (.moduleLoaded 1 .success)).run reloadingHost deliver
        ⟨s, (phase, installs)⟩).2 = ⟨s', (phase, installs)⟩ ∧ s'.Working ∧
      s'.find? 1 = some (id, record cache) ∧ s'.hasClaim id localRequest.method = false := by
  have hcandidates : constantEngine.registry.candidatesFor localFacts.identity ≠ [] := by
    rw [candidatesFor_constantEngine]
    exact List.cons_ne_nil _ _
  have hinfo : exchange reloadingHost deliver (.moduleInfo 1)
      (counted (.moduleLoaded 1 .success) ⟨s, (phase, installs)⟩) =
        (.ok localFacts.info, ⟨s.countEvent .moduleLoad, (phase, installs)⟩) := rfl
  have hopen : exchange reloadingHost deliver (.openMetadata 1)
      ⟨s.countEvent .moduleLoad, (phase, installs)⟩ =
        (.ok (), ⟨s.countEvent .moduleLoad, (phase, installs)⟩) := rfl
  have hloaded := run_loaded hs.running hcandidates hinfo hopen
  have hs' : (s.countEvent .moduleLoad).Working := hs.of_emitter rfl rfl
  refine ⟨_, s.records.size, (s.emitter.cacheOf 1).1, hloaded, hs'.enroll _ _ _, ?_,
    EngineState.hasClaim_enroll hs' _ _ _ _⟩
  refine (EngineState.find?_enroll hs' _ _ _).trans ?_
  show _ = some (s.records.size, recordOf 1 localFacts.info [constantRule] _)
  rw [← candidatesFor_constantEngine]
  rfl

/-- While the first compilation waits for the signature of the locals, the module is loaded anew,
and the second compilation finds the method unclaimed and its body as it was. -/
theorem exists_reloaded (hs : s.Working) :
    ∃ new, Reloaded [⟨1, localRequest.method, new⟩]
      (constantEngine.inner reloadingHost 1 (.compiling 2 true)
        (constantEngine.inner reloadingHost 1 (.moduleLoaded 1 .success) ⟨s, (2, [])⟩)) := by
  obtain ⟨s', id, cache, hloaded, hs', hfind, hunclaimed⟩ :=
    exists_loaded (constantEngine.inner reloadingHost 0) 2 [] hs
  have hloaded : constantEngine.inner reloadingHost 1 (.moduleLoaded 1 .success) ⟨s, (2, [])⟩ =
      ⟨s', (2, [])⟩ := hloaded
  have hread : (readMethod (subject id cache)).run.run reloadingHost
      (constantEngine.inner reloadingHost 0) ⟨claimed s' id, (2, [])⟩ =
        (.ok (localRequest.body, localRequest.locals), ⟨claimed s' id, (2, [])⟩) :=
    run_readMethod rfl supported_localRequest.readBody rfl rfl rfl
  rw [hloaded]
  exact exists_installed hs' (by decide : 2 ≠ 1) hfind hunclaimed 2 hread
    ⟨hs'.of_emitter rfl rfl, rfl⟩

/-- The module is loaded and the method compiled for one function. -/
def events : List Event := [.moduleLoaded 1 .success, .compiling 1 true]

/-- In the end both compilations have installed a body. -/
theorem exists_twice :
    ∃ new new', (constantEngine.deliverAll reloadingHost 1 events ⟨.fresh 3, (0, [])⟩).host =
      (2, [⟨1, localRequest.method, new⟩, ⟨1, localRequest.method, new'⟩]) := by
  obtain ⟨s, id, cache, hloaded, hs, hfind, hunclaimed⟩ :=
    exists_loaded (constantEngine.inner reloadingHost 1) 0 [] (EngineState.working_fresh 3)
  have hclaimed : (claimed s id).Working := hs.of_emitter rfl rfl
  obtain ⟨new, hreloaded⟩ := exists_reloaded hclaimed
  have hread : (readMethod (subject id cache)).run.run reloadingHost
      (constantEngine.inner reloadingHost 1) ⟨claimed s id, (0, [])⟩ =
        (.ok (localRequest.body, localRequest.locals), _) :=
    run_readMethod rfl supported_localRequest.readBody rfl rfl rfl
  obtain ⟨new', hinstalled⟩ :=
    exists_installed hs (by decide : 0 ≠ 1) hfind hunclaimed 1 hread hreloaded
  refine ⟨new, new', ?_⟩
  simp only [deliverAll, events, List.foldl_cons, List.foldl_nil, deliver_eq]
  rw [hloaded]
  exact hinstalled.2

end Reloading

end CilProbe
