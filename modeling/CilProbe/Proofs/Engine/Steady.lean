/-
CilProbe/Proofs/Engine/Steady.lean

Runtimes that do not change their mind.  A question about a module may fail at one time and
not at another, but where it is answered, the answer is always the same (`Below`); and the
body of a method that was exchanged is the one that was installed last (`Host.Steady`).

For such a runtime the rule that is chosen for a method depends on the method alone
(`ruleFor_of_chosen`).  So does the token of the rule's entry helper once it is in the token
cache (`HelperRef.enter?`), and a body that starts with a probe that calls it is recognised
(`not_probed_of_carries`).
-/
import CilProbe.Proofs.Engine.Instrument
import CilProbe.Proofs.Engine.Callbacks
import CilProbe.Proofs.Engine.Records
import CilProbe.Proofs.Probe.Recognition

namespace CilProbe

/-! ### Answers that may fail -/

/-- Where the first of two computations succeeds, so does the second, with the same result. -/
def Below {α : Type} (x y : Except Error α) : Prop := ∀ a, x = .ok a → y = .ok a

namespace Below

variable {α β : Type}

theorem refl (x : Except Error α) : Below x x := fun _ => id

theorem bind {x y : Except Error α} {f g : α → Except Error β} (h : Below x y)
    (hf : ∀ a, Below (f a) (g a)) : Below (x >>= f) (y >>= g) := by
  intro b hb
  obtain ⟨a, hx, hfa⟩ := bind_eq_ok.mp hb
  exact bind_eq_ok.mpr ⟨a, h a hx, hf a b hfa⟩

theorem mapM {f g : α → Except Error β} (hf : ∀ a, Below (f a) (g a)) (items : List α) :
    Below (items.mapM f) (items.mapM g) := by
  induction items with
  | nil => exact refl _
  | cons a items ih =>
    rw [List.mapM_cons, List.mapM_cons]
    exact (hf a).bind fun b => ih.bind fun bs => refl _

end Below

namespace TypeSig

variable {names names' : TypeNames}

mutual

/-- The name of a type, where it can be had. -/
theorem name_below (hnames : ∀ token, Below (names token) (names' token)) (t : TypeSig) :
    Below (t.name names) (t.name names') := by
  cases t with
  | classType token => exact hnames token
  | valueType token => exact hnames token
  | pointer t => exact (name_below hnames t).bind fun _ => .refl _
  | byRef t => exact (name_below hnames t).bind fun _ => .refl _
  | vector t => exact (name_below hnames t).bind fun _ => .refl _
  | array t rank sizes bounds => exact (name_below hnames t).bind fun _ => .refl _
  | instance_ isValueType generic args =>
    exact (nameAll_below hnames args).bind fun _ => (hnames generic).bind fun _ => .refl _
  | modified required modifier t => exact name_below hnames t
  | pinned t => exact name_below hnames t
  | _ => exact .refl _

theorem nameAll_below (hnames : ∀ token, Below (names token) (names' token)) (ts : List TypeSig) :
    Below (nameAll names ts) (nameAll names' ts) := by
  cases ts with
  | nil => exact .refl _
  | cons t ts => exact (name_below hnames t).bind fun _ => (nameAll_below hnames ts).bind fun _ => .refl _

end

end TypeSig

/-! ### Metadata -/

/-- What one view of a module's metadata shows the other shows as well. -/
structure MetadataView.Below (v view : MetadataView) : Prop where
  typeName : ∀ token, CilProbe.Below (v.typeName token) (view.typeName token)
  methodProps : ∀ token, CilProbe.Below (v.methodProps token) (view.methodProps token)
  hierarchy : v.hierarchy = view.hierarchy

theorem MetadataView.Below.resolve {v view : MetadataView} (h : v.Below view) (props : MethodProps)
    (assembly : AssemblyIdentity) :
    CilProbe.Below (MethodDescriptor.resolve v props assembly)
      (MethodDescriptor.resolve view props assembly) := by
  have hdescribe : ∀ t, CilProbe.Below (MethodDescriptor.describe v.typeName t)
      (MethodDescriptor.describe view.typeName t) := fun t =>
    (TypeSig.name_below h.typeName t).bind fun _ => .refl _
  refine .bind (.refl _) fun signature => ?_
  refine .bind (hdescribe _) fun returnType => ?_
  refine .bind (.mapM hdescribe _) fun parameters => ?_
  exact .bind (h.typeName _) fun typeName => .refl _

/-- A runtime whose answers about a module do not change where it answers, which names a method
by the token that was asked for, and which takes as the body of a method the one that was
installed last. -/
structure Host.Steady {τ : Type} (h : Host τ) (ledger : h.Ledger) (f : ModuleFacts) : Prop where
  info : ∀ t, Below (h.answer (.moduleInfo f.module) t).1 (.ok f.info)
  metadata : ∀ t, MetadataView.Below (h.answer (.metadata f.module) t).1 f.view
  asked : ∀ method props, f.view.methodProps method = .ok props → props.token = method
  body : ∀ method t i, (ledger.installsFor f.module method t).getLast? = some i →
    Below (h.answer (.readBody f.module method) t).1 (.ok i.body)

/-! ### Rules -/

namespace Engine

/-- The rule that applies to a method, as far as the metadata can be had. -/
def ruleFor (e : Engine) (f : ModuleFacts) (method : Token) : Except Error (Option Rule) := do
  let props ← f.view.methodProps method
  let descriptor ← MethodDescriptor.resolve f.view props f.identity
  return Rule.select (f.candidates e)
    { typeToken := props.typeToken, methodToken := props.token, descriptor,
      hierarchy := f.view.hierarchy }

section Chosen

variable {e : Engine} {f : ModuleFacts} {s : Subject} {rule : Rule} {view : MetadataView}
  {method : Token}

/-- The rule that is chosen for a method of the module is the one that applies to it. -/
theorem ruleFor_of_chosen (hview : view.Below f.view)
    (hasked : ∀ method props, f.view.methodProps method = .ok props → props.token = method)
    (hidentity : s.record.identity = f.identity)
    (hcandidates : s.record.candidates = f.candidates e)
    (hprops : view.methodProps method = .ok s.props)
    (hdescriptor : MethodDescriptor.resolve view s.props s.record.identity = .ok s.descriptor)
    (hselected : Rule.select s.record.candidates
      { typeToken := s.props.typeToken, methodToken := s.props.token, descriptor := s.descriptor,
        hierarchy := view.hierarchy } = some rule) :
    s.props.token = method ∧ e.ruleFor f method = .ok (some rule) := by
  have hprops := hview.methodProps method s.props hprops
  have hdescriptor := hview.resolve s.props s.record.identity s.descriptor hdescriptor
  refine ⟨hasked method s.props hprops, ?_⟩
  rw [hidentity] at hdescriptor
  rw [hcandidates, hview.hierarchy] at hselected
  refine bind_eq_ok.mpr ⟨s.props, hprops, bind_eq_ok.mpr ⟨s.descriptor, hdescriptor, ?_⟩⟩
  exact congrArg Except.ok hselected

end Chosen

end Engine

/-! ### Tokens in the cache -/

/-- The token of the entry helper, if it is in a token cache. -/
def HelperRef.enter? (helper : HelperRef) (c : TokenCache) : Option Token := do
  let scope ← c.get? (.assemblyRef helper.assembly)
  let parent ← c.get? (.typeRef scope helper.typeName)
  let blob ← HelperRef.enterSignature.encode.toOption
  c.get? (.memberRef parent helper.enterMethod blob)

theorem HelperRef.enter?_eq_some {helper : HelperRef} {c : TokenCache} {enter : Token} :
    helper.enter? c = some enter ↔ ∃ scope parent blob,
      c.get? (.assemblyRef helper.assembly) = some scope ∧
      c.get? (.typeRef scope helper.typeName) = some parent ∧
      HelperRef.enterSignature.encode = .ok blob ∧
      c.get? (.memberRef parent helper.enterMethod blob) = some enter := by
  have hblob : ∀ blob, HelperRef.enterSignature.encode.toOption = some blob ↔
      HelperRef.enterSignature.encode = .ok blob := by
    intro blob
    cases HelperRef.enterSignature.encode with
    | ok blob' => exact ⟨fun h => congrArg Except.ok (Option.some.inj h),
        fun h => congrArg some (Except.ok.inj h)⟩
    | error err => exact ⟨nofun, nofun⟩
  unfold enter?
  simp only [Option.bind_eq_bind, Option.bind_eq_some_iff, hblob]
  constructor
  · rintro ⟨scope, hscope, parent, hparent, blob, hencode, henter⟩
    exact ⟨scope, parent, blob, hscope, hparent, hencode, henter⟩
  · rintro ⟨scope, parent, blob, hscope, hparent, hencode, henter⟩
    exact ⟨scope, hscope, parent, hparent, blob, hencode, henter⟩

/-- It stays there. -/
theorem HelperRef.enter?_later {helper : HelperRef} {c c' : TokenCache} {enter : Token}
    (hrows : ∀ row token, c.get? row = some token → c'.get? row = some token)
    (henter : helper.enter? c = some enter) : helper.enter? c' = some enter := by
  obtain ⟨scope, parent, blob, hscope, hparent, hblob, htoken⟩ := enter?_eq_some.mp henter
  exact enter?_eq_some.mpr ⟨scope, parent, blob, hrows _ _ hscope, hrows _ _ hparent, hblob,
    hrows _ _ htoken⟩

/-- A body whose code starts with a probe for the method that calls the entry helper. -/
def CarriesProbe (data : List UInt8) (method enter : Token) : Prop :=
  ∃ body code instructions, MethodBody.read data = .ok body ∧ body.code data = .ok code ∧
    code ≠ [] ∧ decode code = .ok instructions ∧ isProbed instructions method enter = true

/-- What comes out of instrumenting carries the probe. -/
theorem Relocated.carriesProbe {body : MethodBody} {code : List (Instruction Offset)}
    {size : Offset} {method enter : Token} {answerSlot : UInt16} {plan : Option ExitPlan}
    {r : ProbedMethod} {c : CodeParts}
    (h : Relocated body code size method enter answerSlot plan r c) :
    CarriesProbe r.body method enter := by
  obtain ⟨body', hread, hcode, -⟩ := h.read
  refine ⟨body', codeBytes c.all, c.all, hread, hcode, ?_, h.decode_all, h.isProbed_all⟩
  intro hnil
  have hdecoded := h.decode_all
  rw [hnil] at hdecoded
  have hprobed := h.isProbed_all
  rw [← Except.ok.inj hdecoded] at hprobed
  cases hprobed

section Runs

variable {τ : Type} {h : Host τ} {deliver : Event → World EngineState τ → World EngineState τ}
  {w w' : World EngineState τ} {c : Course EngineState τ} {m : ModuleId} {id : CacheId}
  {row : MetadataRow} {helper : HelperRef} {limit : Nat} {request : ProbeRequest} {enter : Token}

namespace Engine

/-- A row that is in the cache is not asked for. -/
theorem runs_token_of_cached {token : Token} (hrow : (w.engine.emitter.cache id).get? row = some token) :
    ((moduleAccess m id).token row).run.Runs h deliver w (.ok token) .empty w := by
  rw [token_eq, Proc.runs_read, hrow]
  exact Proc.runs_done.mpr ⟨rfl, rfl, rfl⟩

/-- How a row is looked up. -/
theorem runs_token {r : Except Error Token}
    (hruns : ((moduleAccess m id).token row).run.Runs h deliver w r c w') :
    (∃ token, (w.engine.emitter.cache id).get? row = some token ∧ r = .ok token ∧ c = .empty ∧
      w' = w) ∨
    (∃ err, r = .error err ∧ c = .empty ∧ w' = w) ∨
    ∃ made w₁, (w.engine.emitter.cache id).get? row = none ∧
      ((moduleAccess m id).defineWithin row (w.engine.emitter.cache id).retryLimit 0).Runs h deliver
        w made c w₁ ∧
      ((∃ err, made = .error err ∧ r = .error err ∧ w' = w₁) ∨
        ∃ token attempts, made = .ok (token, attempts) ∧ r = .ok token ∧
          w' = { w₁ with engine := { w₁.engine with
            emitter := w₁.engine.emitter.modifyCache id (·.record ⟨row, token, attempts⟩) } }) := by
  rw [token_eq, Proc.runs_read] at hruns
  split at hruns
  · next token hrow =>
    obtain ⟨rfl, rfl, rfl⟩ := Proc.runs_done.mp hruns
    exact .inl ⟨token, hrow, rfl, rfl, rfl⟩
  · next err _ _ =>
    obtain ⟨rfl, rfl, rfl⟩ := Proc.runs_done.mp hruns
    exact .inr (.inl ⟨err, rfl, rfl, rfl⟩)
  · next hrow _ =>
    obtain ⟨made, c₁, w₁, c₂, hdefine, hrest, rfl⟩ := Proc.runs_bind.mp hruns
    rcases made with err | ⟨token, attempts⟩
    · obtain ⟨rfl, rfl, rfl⟩ := Proc.runs_done.mp hrest
      rw [Course.append_empty]
      exact .inr (.inr ⟨_, _, hrow, hdefine, .inl ⟨err, rfl, rfl, rfl⟩⟩)
    · obtain ⟨hrun, rfl⟩ := hrest
      obtain ⟨rfl, rfl⟩ := Prod.mk.inj hrun
      refine .inr (.inr ⟨_, _, hrow, ?_, .inr ⟨token, attempts, rfl, rfl, rfl⟩⟩)
      rw [show Proc.course h deliver _ w₁ = .empty from rfl, Course.append_empty]
      exact hdefine

/-- The entry helper is known without asking if its rows are in the cache. -/
theorem runs_enter_of_cached (hcached : helper.enter? (w.engine.emitter.cache id) = some enter) :
    (helper.tokens (moduleAccess m id)).enter.run.Runs h deliver w (.ok enter) .empty w := by
  obtain ⟨scope, parent, blob, hscope, hparent, hblob, henter⟩ :=
    HelperRef.enter?_eq_some.mp hcached
  have htype : (helper.typeToken (moduleAccess m id)).run.Runs h deliver w (.ok parent) .empty w :=
    Attempt.runs_bind.mpr (.inr ⟨scope, .empty, w, .empty, runs_token_of_cached hscope,
      runs_token_of_cached hparent, rfl⟩)
  refine Attempt.runs_bind.mpr (.inr ⟨parent, .empty, w, .empty, htype, ?_, rfl⟩)
  exact Attempt.runs_mk_bind.mpr (.inr ⟨blob, hblob, runs_token_of_cached henter⟩)

/-- A run has one result. -/
theorem Runs.unique {α : Type} {p : Proc EngineState α} {a b : α} {c' : Course EngineState τ}
    {w₁ : World EngineState τ} (hruns : p.Runs h deliver w a c w')
    (hruns' : p.Runs h deliver w b c' w₁) : a = b ∧ c = c' ∧ w' = w₁ := by
  obtain ⟨hrun, rfl⟩ := hruns
  obtain ⟨hrun', rfl⟩ := hruns'
  obtain ⟨rfl, rfl⟩ := Prod.mk.inj (hrun.symm.trans hrun')
  exact ⟨rfl, rfl, rfl⟩

/-- A body that carries the probe is not instrumented again by whoever knows the entry helper
from the cache. -/
theorem runs_probe_of_carries (hcarries : CarriesProbe request.body request.method enter)
    (hcached : helper.enter? (w.engine.emitter.cache id) = some enter) :
    (probe limit request (helper.tokens (moduleAccess m id))).run.Runs h deliver w
      (.ok .alreadyProbed) .empty w := by
  obtain ⟨body, code, instructions, hread, hcode, hne, hdecode, hprobed⟩ := hcarries
  have hrequest : request.read = .ok (body, code) :=
    ProbeRequest.read_eq_ok.mpr ⟨hread, hcode, hne⟩
  rw [probe_eq]
  refine Attempt.runs_mk_bind.mpr (.inr ⟨(body, code), hrequest, ?_⟩)
  refine Attempt.runs_mk_bind.mpr (.inr ⟨instructions, hdecode, ?_⟩)
  refine Attempt.runs_bind.mpr (.inr ⟨enter, .empty, w, .empty, runs_enter_of_cached hcached, ?_,
    rfl⟩)
  rw [if_pos hprobed]
  exact Attempt.runs_pure.mpr ⟨rfl, rfl, rfl⟩

/-- A body that was instrumented carries the probe that calls the entry helper, whose token came
first. -/
theorem carries_of_runs {source : TokenSource (Proc EngineState)} {r : ProbedMethod}
    (hruns : (probe limit request source).run.Runs h deliver w (.ok (.probed r)) c w') :
    ∃ enter c₁ w₁ c₂ body code instructions, CarriesProbe r.body request.method enter ∧
      source.enter.run.Runs h deliver w (.ok enter) c₁ w₁ ∧
      (probeBehind limit request source body code instructions enter).run.Runs h deliver w₁
        (.ok (.probed r)) c₂ w' ∧ c = c₁ ++ c₂ := by
  have hwithin : (Attempt.within h deliver (probe limit request source)).run.run w =
      (.ok (.probed r), w') := hruns.1
  rw [probe_within] at hwithin
  obtain ⟨_, _, _, enter, _, _, _, hi⟩ := instrumented_of_probe hwithin
  obtain ⟨w₁, hasked, -⟩ := hi.asked
  rw [probe_eq] at hruns
  rcases Attempt.runs_mk_bind.mp hruns with ⟨_, -, ⟨⟩, -⟩ | ⟨⟨body, code⟩, -, hruns⟩
  rcases Attempt.runs_mk_bind.mp hruns with ⟨_, -, ⟨⟩, -⟩ | ⟨instructions, -, hruns⟩
  rcases Attempt.runs_bind.mp hruns with ⟨_, ⟨⟩, -⟩ | ⟨enter', c₁, w₂, c₂, henter, hrest, rfl⟩
  obtain rfl : enter = enter' :=
    Except.ok.inj (Prod.mk.inj ((hasked : source.enter.run.run h deliver w = _).symm.trans henter.1)).1
  split at hrest
  · obtain ⟨⟨⟩, -⟩ := Attempt.runs_pure.mp hrest
  · exact ⟨enter, c₁, w₂, c₂, body, code, instructions, hi.relocated.carriesProbe, henter, hrest,
      rfl⟩

end Engine

end Runs

end CilProbe
