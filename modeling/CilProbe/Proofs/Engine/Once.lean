/-
CilProbe/Proofs/Engine/Once.lean

No method is instrumented twice.  A second body can be installed for a method only by a
compilation that read a body without a probe, and behind an installation there is none:
the body that was installed calls the entry helper by the token that is in the token cache
of the module, and a module keeps its token cache and the rows in it even where it is loaded
anew, and its methods can be claimed again (`Watch.keeps_instrumenting`).

What is left is that nobody installs a body while another compilation holds one that it read
before.  Events may come at any time, but behind the body a compilation asks about the module's
metadata or under its writer lock.  `Engine.SerialAll` says of a run that the lock is not taken
again while it is held, which whoever tries waits for.  While metadata is looked at nobody holds
it, and `Engine.UndisturbedAll` says of a run that the method is left alone then.
-/
import CilProbe.Proofs.Engine.Accounting
import CilProbe.Proofs.Engine.Watch

namespace CilProbe

open Engine

namespace Watch

section Ways

variable {τ : Type} {h : Host τ} {x : Watch h}
  {deliver : Event → World EngineState τ → World EngineState τ} {w w' : World EngineState τ}
  {c : Course EngineState τ} {s : Subject} {rule : Rule}

/-! ### The method that was found -/

/-- What is known of a method from when a rule was chosen for it. -/
structure Found (x : Watch h) (s : Subject) (rule : Rule) (state : EngineState) : Prop where
  held : Held s.record state
  rule : s.record.module = x.facts.module → s.props.token = x.method →
    x.engine.ruleFor x.facts x.method = .ok (some rule)
  live : s.record.module = x.facts.module →
    state.tornDown = true ∨ state.emitter.live[x.facts.module]? = some s.record.cache

theorem Found.later {state state' : EngineState} (hfound : x.Found s rule state)
    (hlater : state.Later x.facts.module state') : x.Found s rule state' where
  held := hfound.held.later hlater
  rule := hfound.rule
  live hm := (hfound.live hm).elim (fun hdown => .inl (hlater.stopped hdown)) (hlater.live _)

theorem found_of_chosen (hsteady : h.Steady x.ledger x.facts) {function : FunctionId}
    (hruns : (x.engine.choose function).run.Runs h deliver w (.ok (some (some (s, rule)))) c w')
    (horderly : x.Orderly deliver c) (hw : x.Intact w) : x.Found s rule w'.engine := by
  obtain ⟨info, w₁, view, hinfo, hfind, hview, hprops, hdescriptor, hselected, rfl⟩ :=
    exists_of_chosen hruns
  obtain ⟨horder, horder'⟩ := orderly_append horderly
  have hfirst : x.Passes deliver False w (Proc.asking h deliver _ w) w₁ :=
    keeps_of_exchange hinfo (elsewhere_of_notInstall trivial) horder hw
  have hsecond : x.Passes deliver False w₁ (Proc.asking h deliver _ w₁) w' :=
    keeps_of_exchange hview (elsewhere_of_notInstall trivial) horder' hfirst.intact
  obtain ⟨hlive, hrecord⟩ := EngineState.find?_eq_some.mp hfind
  obtain ⟨r, hr, hm, hcache⟩ := hfirst.intact.coherent.records info.module s.id hlive
  obtain rfl : r = s.record := Option.some.inj (hr.symm.trans hrecord)
  suffices hfound : x.Found s rule w₁.engine from hfound.later hsecond.later
  constructor
  case held =>
    obtain ⟨hid, hcached⟩ := hfirst.intact.coherent.caches info.module s.record.cache hcache
    exact ⟨hid, hcached.trans hm.symm⟩
  case rule =>
    intro hmodule hmethod
    have hmodule' : info.module = x.facts.module := hm.symm.trans hmodule
    -- what the engine saw of the metadata is less than what there is, and says the same
    obtain ⟨-, hidentity, hcandidates⟩ :=
      hfirst.intact.tracks s.id s.record (hmodule' ▸ hlive) hrecord
    have hbelow : MetadataView.Below (Proc.exchange h deliver (.metadata x.facts.module) w₁).1
        x.facts.view := hsteady.metadata _
    rw [← hmodule, hview] at hbelow
    obtain ⟨htoken, hrule⟩ := ruleFor_of_chosen hbelow hsteady.asked hidentity hcandidates hprops
      hdescriptor hselected
    rw [← hmethod, htoken]
    exact hrule
  case live =>
    intro hmodule
    rw [← hmodule, hm]
    exact .inr hcache

/-! ### Questions about the method -/

theorem keeps_read {rows : Prop} {a : Except Error (List UInt8 × List UInt8)}
    (hruns : (readMethod s).run.Runs h deliver w a c w') : x.Keeps deliver rows w c w' :=
  keeps_of_confined (confined_readMethod s (elsewhere_of_notInstall trivial)
    (elsewhere_of_notInstall trivial) _) hruns

theorem keeps_check {rows : Prop} {body : List UInt8} {a : Except Error Unit}
    (hruns : (x.engine.check s body).run.Runs h deliver w a c w') : x.Keeps deliver rows w c w' :=
  keeps_of_confined (confined_check x.engine s body (elsewhere_of_notInstall trivial) _) hruns

/-- Questions that are asked behind the body of a method: about the metadata of its module, and
under the writer lock. -/
def Behind (x : Watch h) (q : Query) : Prop :=
  (q.Locks x.facts.module ∨ q = .metadata x.facts.module) ∧ x.Elsewhere q

/-- While only such questions are asked nothing is accepted for the method, unless it is while
they wait for metadata. -/
theorem installs_of_confined {α : Type} {p : Proc EngineState α} {a : α}
    {R : EngineState → EngineState → Prop} {rows : Prop} (hp : p.Confined x.Behind R w.engine)
    (hruns : p.Runs h deliver w a c w') (horderly : x.Orderly deliver c)
    (halone : ∀ d ∈ c.deliveries, d.pending = .metadata x.facts.module → x.Spares deliver d)
    (hpasses : x.Passes deliver rows w c w') : x.installs w' = x.installs w := by
  refine hpasses.installs (fun d hd => ?_) fun q hq => (hp.query_of_mem hruns q hq).2
  rcases (hp.pending_of_mem hruns d hd).1 with hlocked | hmetadata
  · exact (horderly.locked d hd hlocked).1
  · exact halone d hd hmetadata

/-- The body that was read is the one that was installed last, if there is one when all is read. -/
theorem body_of_read (hsteady : h.Steady x.ledger x.facts) (hmodule : s.record.module = x.facts.module)
    (hmethod : s.props.token = x.method) {data locals : List UInt8}
    (hruns : (readMethod s).run.Runs h deliver w (.ok (data, locals)) c w')
    (horderly : x.Orderly deliver c)
    (halone : ∀ d ∈ c.deliveries, d.pending = .metadata x.facts.module → x.Spares deliver d)
    (hw : x.Intact w) {i : Installation} (hi : (x.installs w').getLast? = some i) :
    data = i.body := by
  rcases runs_demand_bind.mp hruns with ⟨_, -, ⟨⟩, -⟩ | ⟨body, c', hanswer, hrest, rfl⟩
  have hrest : (readLocals s body).run.Runs h deliver _ (.ok (data, locals)) c' w' := hrest
  have hnot : ∀ m method, x.Elsewhere (.readBody m method) := fun _ _ =>
    elsewhere_of_notInstall trivial
  obtain ⟨horder, horder'⟩ := orderly_append horderly
  have hread : x.Passes deliver True w _ _ := keeps_exchange (.inl (hnot _ _)) horder hw
  have hlocals : x.Passes deliver True _ c' w' :=
    keeps_of_confined (confined_readLocals s body (elsewhere_of_notInstall trivial) _) hrest horder'
      hread.intact
  -- nothing is accepted while the locals are looked up
  have hsame : x.installs w' = x.installs _ :=
    installs_of_confined (R := fun _ _ => True)
      (confined_readLocals s body ⟨.inr (congrArg _ hmodule), elsewhere_of_notInstall trivial⟩ _)
      hrest horder' (List.forall_mem_append.mp halone).2 hlocals
  have hanswered : x.installs (Proc.exchange h deliver (.readBody s.record.module s.props.token) w).2 =
      x.installs (Proc.resumed h deliver (.readBody s.record.module s.props.token) w) := by
    refine (installsFor_answer _ _).trans ?_
    rw [accepted_elsewhere (hnot _ _), List.append_nil]
    rfl
  rw [hsame, hanswered] at hi
  rw [hmodule, hmethod] at hanswer hi
  obtain rfl := fst_of_readLocals hrest
  exact (Except.ok.inj (hsteady.body x.method _ i hi data hanswer)).symm

/-! ### The probe -/

theorem keeps_probing (hheld : Held s.record w.engine) {data locals : List UInt8}
    {a : Except Error ProbeOutcome}
    (hruns : (x.engine.probing s rule data locals).run.Runs h deliver w a c w') :
    x.Keeps deliver False w c w' :=
  (closed_probe_tokens (closed_keeping x deliver s.record) (fun row => ⟨rfl, keeping_token row⟩)
    rule.helper ⟨rfl, keeping_coreLibrary⟩ _ _).2 w a c w' hheld hruns

/-- The rows that make up the entry helper are in the cache once they were looked up. -/
theorem enter?_of_runs {r : ModuleRecord} (hheld : Held r w.engine)
    (hmodule : r.module = x.facts.module) {helper : HelperRef} {enter : Token}
    (hruns : (helper.tokens (moduleAccess r.module r.cache)).enter.run.Runs h deliver w (.ok enter)
      c w')
    (horderly : x.Orderly deliver c) (hw : x.Intact w) :
    helper.enter? (w'.engine.emitter.cache r.cache) = some enter := by
  rcases Attempt.runs_bind.mp hruns with ⟨_, ⟨⟩, -⟩ | ⟨parent, c₁, w₁, c₂, htype, hrest, rfl⟩
  rcases Attempt.runs_bind.mp htype with ⟨_, ⟨⟩, -⟩ | ⟨scope, c₃, w₂, c₄, hscope, hparent, rfl⟩
  rcases Attempt.runs_mk_bind.mp hrest with ⟨_, -, ⟨⟩, -⟩ | ⟨blob, hblob, henter⟩
  obtain ⟨horder, horder₂⟩ := orderly_append horderly
  obtain ⟨horder₃, horder₄⟩ := orderly_append horder
  have hpasses₃ := keeps_token hheld hscope horder₃ hw
  have hheld₂ := hheld.later hpasses₃.later
  have hpasses₄ := keeps_token hheld₂ hparent horder₄ hpasses₃.intact
  have hheld₁ := hheld₂.later hpasses₄.later
  have hpasses₂ := keeps_token hheld₁ henter horder₂ hpasses₄.intact
  have hkept₁ := hpasses₂.later.rows r.cache hheld₁.1 (hheld₁.2.trans hmodule)
  have hkept₂ := hpasses₄.later.rows r.cache hheld₂.1 (hheld₂.2.trans hmodule)
  refine HelperRef.enter?_eq_some.mpr ⟨scope, parent, blob, ?_, ?_, hblob, ?_⟩
  · exact hkept₁ _ _ (hkept₂ _ _ (get?_of_runs hheld hscope horder₃ hw))
  · exact hkept₁ _ _ (get?_of_runs hheld₂ hparent horder₄ hpasses₃.intact)
  · exact get?_of_runs hheld₁ henter horder₂ hpasses₄.intact

section Probed

variable (hfound : x.Found s rule w.engine) (hmodule : s.record.module = x.facts.module)
  (hmethod : s.props.token = x.method) {data locals : List UInt8} {r : ProbedMethod}
  (hruns : (x.engine.probing s rule data locals).run.Runs h deliver w (.ok (.probed r)) c w')
  (hw : x.Intact w)
include hfound hmodule hmethod hruns hw

/-- Had a body been installed before it was read, it would have been recognised. -/
theorem base_of_probed (hdata : ∀ i, (x.installs w).getLast? = some i → data = i.body) :
    w.engine.tornDown = true ∨ x.installs w = x.base := by
  rcases hw.once with hbase | ⟨i, hi, hdown | hbody⟩
  · exact .inr hbase
  · exact .inl hdown
  obtain ⟨id, rule', enter, hlive, hrule, henter, hcarries⟩ := hbody
  refine (hfound.live hmodule).imp_right fun hcache => ?_
  obtain rfl : id = s.record.cache := Option.some.inj (hlive.symm.trans hcache)
  obtain rfl : rule' = rule :=
    Option.some.inj (Except.ok.inj (hrule.symm.trans (hfound.rule hmodule hmethod)))
  obtain rfl : data = i.body := by
    apply hdata i
    rw [hi]
    exact List.getLast?_concat
  rw [← hmethod] at hcarries
  obtain ⟨⟨⟩, -⟩ := Runs.unique hruns (runs_probe_of_carries hcarries henter)

/-- What was instrumented will be recognised. -/
theorem recognises_of_probed (horderly : x.Orderly deliver c) :
    w'.engine.tornDown = true ∨ x.Recognises w'.engine r.body := by
  obtain ⟨enter, c₁, w₁, c₂, body, code, instructions, hcarries, henter, hbehind, rfl⟩ :=
    carries_of_runs hruns
  obtain ⟨horder, horder'⟩ := orderly_append horderly
  have hK := closed_keeping x deliver s.record
  have htokens := closed_methodToken hK (fun row => ⟨rfl, keeping_token row⟩) rule.helper
  have hpasses : x.Passes deliver False w c₁ w₁ :=
    (htokens _ _).2 w _ c₁ w₁ hfound.held henter horder hw
  have hfound₁ := hfound.later hpasses.later
  have hpasses' : x.Passes deliver False w₁ c₂ w' :=
    (closed_probeBehind hK (fun _ => htokens _ _)
      (closed_objectToken hK (fun row => ⟨rfl, keeping_token row⟩) ⟨rfl, keeping_coreLibrary⟩)
      (fun _ => ⟨rfl, keeping_token _⟩) _ _ _ _ _ _).2 w₁ _ c₂ w' hfound₁.held hbehind horder'
      hpasses.intact
  have hcached := enter?_of_runs hfound.held hmodule henter horder hw
  have hrows := hpasses'.later.rows s.record.cache hfound₁.held.1 (hfound₁.held.2.trans hmodule)
  refine ((hfound₁.later hpasses'.later).live hmodule).imp_right fun hlive => ?_
  exact ⟨s.record.cache, rule, enter, hlive, hfound.rule hmodule hmethod,
    HelperRef.enter?_later hrows hcached, hmethod ▸ hcarries⟩

end Probed

/-! ### The installation -/

/-- A body is installed for the method if none was before, and if it will be recognised. -/
theorem keeps_install {body : List UInt8} (hbase : x.installs w = x.base)
    (hrecognised : x.Recognises w.engine body)
    (hanswer : (Proc.exchange h deliver (.install x.facts.module x.method body) w).1 = .ok ()) :
    x.Keeps deliver False w (Proc.asking h deliver (.install x.facts.module x.method body) w)
      (Proc.exchange h deliver (.install x.facts.module x.method body) w).2 := by
  intro horderly hw
  have hpasses : x.Passes deliver False w _ _ := keeps_meanwhile _ w
    ⟨horderly.kept, horderly.locked, fun ⟨_, hi, _⟩ => absurd hi List.not_mem_nil⟩ hw
  -- nobody else installs a body under the lock
  have hspares : ∀ d ∈ (Proc.meanwhile h deliver (.install x.facts.module x.method body)
      w).deliveries, x.Spares deliver d := by
    intro d hd
    refine (horderly.locked d hd ?_).1
    obtain ⟨_, -, rfl⟩ := List.mem_map.mp hd
    rfl
  have hsame := hpasses.installs hspares fun _ hq => absurd hq List.not_mem_nil
  have hinstalls : x.installs (Proc.exchange h deliver (.install x.facts.module x.method body) w).2 =
      x.base ++ [⟨x.facts.module, x.method, body⟩] := by
    refine (installsFor_answer _ _).trans (congrArg₂ (· ++ ·) (hsame.trans hbase) ?_)
    show List.filter _ (Exchange.mk _ (Proc.exchange h deliver _ w).1).accepted?.toList = _
    rw [hanswer]
    apply List.filter_cons_of_pos
    simp only [beq_self_eq_true, Bool.and_self]
  have honce := hrecognised.later hw.coherent hpasses.later
  refine ⟨⟨hpasses.intact.coherent, hpasses.intact.tracks, .inr ⟨_, hinstalls, honce⟩⟩,
    hpasses.later, fun _ helse => ?_, fun _ hrows => ?_⟩
  · exact absurd rfl (helse _ List.mem_cons_self body)
  · exact absurd rfl (hrows.resolve_left id _ List.mem_cons_self)

theorem keeps_installing {body : List UInt8} {r : Except Error (Option MethodOutcome)}
    (hbody : x.Accepts c → s.record.module = x.facts.module → s.props.token = x.method →
      w.engine.tornDown = true ∨ x.installs w = x.base ∧ x.Recognises w.engine body)
    (hinstalling : Installing h deliver s body w r c w') : x.Keeps deliver False w c w' := by
  cases hinstalling with
  | locked => exact composes_keeps.refl w
  | stopped hdown => exact composes_keeps.refl w
  | refused hup hanswer =>
    refine keeps_exchange (.inr ?_)
    rw [hanswer]
    rfl
  | installed hup hanswer =>
    by_cases hsubject : s.record.module = x.facts.module ∧ s.props.token = x.method
    · obtain ⟨hmodule, hmethod⟩ := hsubject
      have haccepts : x.Accepts (Proc.asking h deliver (.install s.record.module s.props.token body)
          w) := by
        refine ⟨⟨s.record.module, s.props.token, body⟩, ?_, hmodule, hmethod⟩
        refine List.mem_filterMap.mpr ⟨_, List.mem_cons_self, ?_⟩
        rw [hanswer]
        rfl
      rcases hbody haccepts hmodule hmethod with hdown | ⟨hbase, hrecognised⟩
      · rw [hup] at hdown
        cases hdown
      · rw [hmodule, hmethod] at hanswer ⊢
        exact keeps_install hbase hrecognised hanswer
    · refine keeps_exchange (.inl ?_)
      rintro body' heq
      injection heq with hmodule hmethod
      exact hsubject ⟨hmodule, hmethod⟩

/-! ### The compilation -/

/-- Instrumenting a method installs a body for it at most once. -/
theorem keeps_instrumenting (hsteady : h.Steady x.ledger x.facts)
    {r : Except Error (Option MethodOutcome)} (hfound : x.Found s rule w.engine)
    (hinstrumenting : Instrumenting h deliver x.engine s rule w r c w') :
    x.Keeps deliver False w c w' := by
  -- reading and probing, in whichever way the probing ends
  have hprobing : ∀ {data locals c₁ w₁ a c₂ w'},
      (readMethod s).run.Runs h deliver w (.ok (data, locals)) c₁ w₁ →
      (x.engine.probing s rule data locals).run.Runs h deliver w₁ a c₂ w' →
      x.Keeps deliver False w (c₁ ++ c₂) w' := by
    intro data locals c₁ w₁ a c₂ w' hread hprobe horderly hw
    obtain ⟨horder, horder'⟩ := orderly_append horderly
    have hpasses : x.Passes deliver False w c₁ w₁ := keeps_read hread horder hw
    exact hpasses.trans (keeps_probing (hfound.later hpasses.later).held hprobe horder' hpasses.intact)
  cases hinstrumenting with
  | unread hread => exact keeps_read hread
  | unprobed hread hprobe => exact hprobing hread hprobe
  | recognised hread hprobe => exact hprobing hread hprobe
  | rejected hread hprobe hcheck =>
    rw [← Course.append_assoc]
    exact composes_keeps.trans (hprobing hread hprobe) (keeps_check hcheck)
  | accepted hread hprobe hcheck hinstalling =>
    intro horderly hw
    obtain ⟨horder₁, hrest⟩ := orderly_append horderly
    obtain ⟨horder₂, hrest⟩ := orderly_append hrest
    obtain ⟨horder₃, horder₄⟩ := orderly_append hrest
    have hpasses₁ : x.Passes deliver False w _ _ := keeps_read hread horder₁ hw
    have hfound₁ := hfound.later hpasses₁.later
    have hpasses₂ := keeps_probing hfound₁.held hprobe horder₂ hpasses₁.intact
    have hpasses₃ : x.Passes deliver False _ _ _ := keeps_check hcheck horder₃ hpasses₂.intact
    refine hpasses₁.trans (hpasses₂.trans (hpasses₃.trans
      (keeps_installing (fun haccepts hmodule hmethod => ?_) hinstalling horder₄ hpasses₃.intact)))
    -- a body is accepted at the end, so nobody else has one accepted while this one waits
    have halone := horderly.alone (by simp only [accepts_append, haccepts, or_true])
    obtain ⟨halone₁, halone⟩ := List.forall_mem_append.mp halone
    obtain ⟨halone₂, halone⟩ := List.forall_mem_append.mp halone
    obtain ⟨halone₃, -⟩ := List.forall_mem_append.mp halone
    have hbase := base_of_probed hfound₁ hmodule hmethod hprobe hpasses₁.intact
      fun i => body_of_read hsteady hmodule hmethod hread horder₁ halone₁ hw
    have hrecognised := recognises_of_probed hfound₁ hmodule hmethod hprobe hpasses₁.intact horder₂
    have hsame₂ := installs_of_confined (R := fun _ _ => True)
      (confined_probe_tokens _ _ _
        ⟨.inr (congrArg _ hmodule), elsewhere_of_notInstall trivial⟩
        (fun _ => ⟨.inl hmodule, elsewhere_of_notInstall trivial⟩) (fun _ _ _ => trivial) _)
      hprobe horder₂ halone₂ hpasses₂
    have hsame₃ := installs_of_confined (R := fun _ _ => True)
      (confined_check x.engine s _ ⟨.inr (congrArg _ hmodule), elsewhere_of_notInstall trivial⟩ _)
      hcheck horder₃ halone₃ hpasses₃
    rcases hbase with hdown | hbase
    · exact .inl (hpasses₃.later.stopped (hpasses₂.later.stopped hdown))
    rcases hrecognised with hdown | hrecognised
    · exact .inl (hpasses₃.later.stopped hdown)
    refine (hrecognised.later hpasses₂.intact.coherent hpasses₃.later).imp_right fun hrecognised => ?_
    exact ⟨hsame₃.trans (hsame₂.trans hbase), hrecognised⟩

/-- So does a compilation. -/
theorem keeps_compiling (hsteady : h.Steady x.ledger x.facts) {function : FunctionId}
    {claim? : Option (Subject × Bool)} {r : Except Error (Option MethodOutcome)}
    (hcompiling : Compiling h deliver x.engine function w claim? r c w') :
    x.Keeps deliver False w c w' := by
  have hchoose : ∀ {a c w'}, (x.engine.choose function).run.Runs h deliver w a c w' →
      x.Keeps deliver False w c w' := fun hruns =>
    keeps_of_confined (confined_choose x.engine function (elsewhere_of_notInstall trivial)
      (fun _ => elsewhere_of_notInstall trivial) _) hruns
  have hclaim : ∀ {w₁ : World EngineState τ} {state : EngineState} {won : Bool} {rule : Rule}
      {s : Subject}, w₁.engine.claim s.id s.props.token rule.integration = (won, state) →
      x.Keeps deliver False w₁ .empty { w₁ with engine := state } := by
    intro w₁ state won rule s hclaim
    obtain rfl : (w₁.engine.claim s.id s.props.token rule.integration).2 = state :=
      congrArg Prod.snd hclaim
    exact keeps_of_advances fun hs htracks => EngineState.advances_claim hs htracks _ _ _
  cases hcompiling with
  | failed hruns => exact hchoose hruns
  | dismissed hruns => exact hchoose hruns
  | unruled hruns => exact hchoose hruns
  | lost hruns hlost =>
    rw [← Course.append_empty c]
    exact composes_keeps.trans (hchoose hruns) (hclaim hlost)
  | won hruns hwon hinstrumenting =>
    intro horderly hw
    obtain ⟨horder, horder'⟩ := orderly_append horderly
    have hpasses := hchoose hruns horder hw
    have hclaimed := hclaim hwon orderly_empty hpasses.intact
    -- the claim leaves caches alone, so what was found still stands
    have hfound := (found_of_chosen hsteady hruns horder hw).later hclaimed.later
    have hrest := keeps_instrumenting hsteady hfound hinstrumenting horder' hclaimed.intact
    exact hpasses.trans (hclaimed.trans hrest)

/-! ### Callbacks -/

/-- A module that was loaded is recorded with what the runtime says about it. -/
theorem keeps_loadModule (hsteady : h.Steady x.ledger x.facts) {m : ModuleId} {a : Except Error Unit}
    (hruns : (x.engine.loadModule m).run.Runs h deliver w a c w') : x.Keeps deliver False w c w' := by
  have hask : x.Keeps deliver False w _ _ := keeps_exchange
    (.inl (elsewhere_of_notInstall (q := .moduleInfo m) trivial))
  rcases runs_demand_bind.mp hruns with ⟨_, -, -, rfl, rfl⟩ | ⟨info, c', hanswer, hrest, rfl⟩
  · exact hask
  have hinfo : m = x.facts.module → info = x.facts.info := by
    rintro rfl
    exact (Except.ok.inj (hsteady.info _ info hanswer)).symm
  have henroll : ∀ s, x.Advances s (enroll s m info
      (x.engine.registry.candidatesFor ⟨info.assemblyName, info.assemblyVersion⟩)) :=
    fun s hs htracks => EngineState.advances_enroll hs htracks fun hm =>
      ⟨hinfo hm, by rw [hinfo hm]; rfl⟩
  refine composes_keeps.trans hask (keeps_of_confined ?_ hrest)
  dsimp only
  split
  · exact ⟨henroll _, trivial⟩
  · have hopen : x.Elsewhere (.openMetadata m) := elsewhere_of_notInstall trivial
    refine Attempt.confined_bind (confined_demand hopen _ _) fun _ s => ?_
    exact ⟨henroll _, trivial⟩

/-- An event that was counted, and that leaves the module loaded. -/
theorem keeps_act (hsteady : h.Steady x.ledger x.facts) {event : Event}
    (hspared : x.facts.SparedBy event) (hruns : (x.engine.act event).Runs h deliver w () c w') :
    x.Keeps deliver False w c w' := by
  cases event with
  | moduleLoaded m status =>
    have hruns : (if status.isOk then ((x.engine.loadModule m).run.bind fun _ => .done ()) else .done () :
        Proc EngineState Unit).Runs h deliver w () c w' := hruns
    split at hruns
    · obtain ⟨a, c₁, w₁, c₂, hload, hdone, rfl⟩ := Proc.runs_bind.mp hruns
      obtain ⟨-, rfl, rfl⟩ := Proc.runs_done.mp hdone
      rw [Course.append_empty]
      exact keeps_loadModule hsteady hload
    · obtain ⟨-, rfl, rfl⟩ := Proc.runs_done.mp hruns
      exact composes_keeps.refl _
  | moduleUnloading m =>
    have hm : m ≠ x.facts.module := by
      rintro rfl
      exact hspared.1 rfl
    exact keeps_of_confined (p := x.engine.act (.moduleUnloading m))
      ⟨fun hs htracks => EngineState.advances_remove hs htracks hm, trivial⟩ hruns
  | compiling function mayBlock =>
    obtain ⟨r, w₁, hcompile, rfl⟩ := runs_of_act hruns
    rw [← Course.append_empty c]
    -- behind the compilation its outcome is counted
    refine composes_keeps.trans (keeps_compiling hsteady (compiling_of_runs hcompile)) ?_
    refine keeps_of_advances fun hs htracks => ?_
    rcases r with err | - | outcome
    · exact EngineState.advances_of_counts hs htracks rfl rfl rfl rfl
    · exact EngineState.advances_of_counts hs htracks rfl rfl rfl rfl
    · exact EngineState.advances_of_counts hs htracks rfl rfl rfl rfl
  | assemblyUnloading a =>
    have ha : a ≠ x.facts.info.assembly := by
      rintro rfl
      exact hspared.2 rfl
    exact keeps_of_confined (p := x.engine.act (.assemblyUnloading a))
      ⟨fun hs htracks => EngineState.advances_removeAssembly hs htracks ha, trivial⟩ hruns
  | shuttingDown =>
    exact keeps_of_confined (p := x.engine.act .shuttingDown)
      ⟨fun hs _ => EngineState.advances_tearDown hs, trivial⟩ hruns

/-- A callback for an event that leaves the module loaded. -/
theorem keeps_handle (hsteady : h.Steady x.ledger x.facts) {event : Event}
    (hspared : x.facts.SparedBy event) {status : StatusCode}
    (hruns : (x.engine.handle event).Runs h deliver w status c w') :
    x.Keeps deliver False w c w' := by
  cases hdown : w.engine.tornDown with
  | true =>
    obtain ⟨-, rfl, rfl⟩ := Runs.unique hruns (handle_of_tornDown hdown)
    exact composes_keeps.refl _
  | false =>
    obtain ⟨c₁, w₁, hact, hhandle⟩ := handle_of_running x.engine h deliver event hdown
    obtain ⟨-, rfl, rfl⟩ := Runs.unique hruns hhandle
    have hcounted : x.Keeps deliver False w .empty (counted event w) :=
      keeps_of_advances fun hs htracks => EngineState.advances_of_counts hs htracks rfl rfl rfl rfl
    exact composes_keeps.trans hcounted (keeps_act hsteady hspared hact)

end Ways

end Watch

/-! ### Runs -/

/-- Whether a body was accepted for a method in a callback. -/
def Callback.Instruments {τ : Type} (c : Callback τ) (m : ModuleId) (method : Token) : Prop :=
  ∃ i ∈ c.installs, i.module = m ∧ i.method = method

namespace Engine

section Throughout

variable {τ : Type} (e : Engine) (h : Host τ) (P : Callback τ → Query → List (Callback τ) → Prop)

/-- What holds of every callback in a delivery, of each question in it for which events were
delivered, and of the callbacks for such an event. -/
def Throughout : Nat → Event → World EngineState τ → Prop
  | 0, _, _ => True
  | depth + 1, event, w =>
    ∀ d ∈ ((e.handle event).course h (e.inner h (depth + 1)) w).deliveries,
      Throughout depth d.event d.world ∧
        P (e.callback h (e.inner h (depth + 1)) event w) d.pending
          (e.history h depth d.event d.world)

/-- Events delivered one after the other, of each of which this holds. -/
def ThroughoutAll (depth : Nat) (events : List Event) (w : World EngineState τ) : Prop :=
  ∀ p ∈ Proc.occasions (fun event w => (e.deliver h depth event w).2) events w,
    e.Throughout h P depth p.1 p.2

variable {e h P}

theorem Throughout.and {P' : Callback τ → Query → List (Callback τ) → Prop} (depth : Nat) :
    ∀ {event w}, e.Throughout h P depth event w → e.Throughout h P' depth event w →
      e.Throughout h (fun c q cs => P c q cs ∧ P' c q cs) depth event w := by
  induction depth with
  | zero => exact fun _ _ => trivial
  | succ depth ih =>
    intro event w hP hP' d hd
    exact ⟨ih (hP d hd).1 (hP' d hd).1, (hP d hd).2, (hP' d hd).2⟩

/-- It is enough that it holds of the questions for which the runtime delivers events. -/
theorem throughout_of_interrupts
    (hinterrupts : ∀ q t, (h.interrupts q t).1 ≠ [] → ∀ c cs, P c q cs) (depth : Nat) :
    ∀ event w, e.Throughout h P depth event w := by
  induction depth with
  | zero => exact fun _ _ => trivial
  | succ depth ih =>
    intro event w d hd
    refine ⟨ih d.event d.world, ?_⟩
    obtain ⟨t, ht⟩ := Proc.interrupts_of_mem hd
    exact hinterrupts d.pending t (List.ne_nil_of_mem ht) _ _

end Throughout

variable {τ : Type} (e : Engine) (h : Host τ) (m : ModuleId) (method : Token)

/-- Runs in which the writer lock of a module is taken by one callback at a time: while a
question under the lock is pending, no other is asked.  Whoever tried to take the lock again
while it is held would wait for ever. -/
def SerialAll : Nat → List Event → World EngineState τ → Prop :=
  e.ThroughoutAll h fun _ pending cs =>
    pending.Locks m → ∀ c ∈ cs, ∀ q ∈ c.exchanges, ¬ q.query.Locks m

/-- Runs in which no body is accepted for a method while another callback, in which one is
accepted for it as well, waits for metadata of the module.  No lock is held then. -/
def UndisturbedAll : Nat → List Event → World EngineState τ → Prop :=
  e.ThroughoutAll h fun c pending cs =>
    pending = .metadata m → c.Instruments m method → ∀ c' ∈ cs, ¬ c'.Instruments m method

end Engine

namespace Watch

variable {τ : Type} {h : Host τ} (x : Watch h)

/-- The lock is respected, and the method is not disturbed. -/
def Guarded (c : Callback τ) (pending : Query) (cs : List (Callback τ)) : Prop :=
  (pending.Locks x.facts.module → ∀ c' ∈ cs, ∀ q ∈ c'.exchanges,
      ¬ q.query.Locks x.facts.module) ∧
    (pending = .metadata x.facts.module → c.Instruments x.facts.module x.method →
      ∀ c' ∈ cs, ¬ c'.Instruments x.facts.module x.method)

/-- What becomes of the world in some callbacks: the rows of the module are left alone if none of
them takes the module's lock. -/
structure Carried (w : World EngineState τ) (cs : List (Callback τ)) (w' : World EngineState τ) :
    Prop where
  intact : x.Intact w'
  later : w.engine.Later x.facts.module w'.engine
  rows : (∀ c ∈ cs, ∀ q ∈ c.exchanges, ¬ q.query.Locks x.facts.module) →
    w.engine.SameRows x.facts.module w'.engine

variable {x}

/-- Whoever asks nothing under the lock has no body accepted. -/
theorem not_instruments_of_unlocked {c : Callback τ}
    (hc : ∀ q ∈ c.exchanges, ¬ q.query.Locks x.facts.module) :
    ¬ c.Instruments x.facts.module x.method := by
  rintro ⟨i, hi, hm, -⟩
  obtain ⟨q, hq, haccepted⟩ := List.mem_filterMap.mp hi
  obtain rfl := eq_of_accepted haccepted
  exact hc _ hq hm

/-- What the books say about the method. -/
theorem installs_booked {w w' : World EngineState τ} {cs : List (Callback τ)}
    (hbooked : Booked x.ledger 0 w cs w') :
    x.installs w' = x.installs w ++ (cs.flatMap (·.installs)).filter
      (fun i => i.module == x.facts.module && i.method == x.method) := by
  show (x.ledger.installs _).filter _ = (x.ledger.installs _).filter _ ++ _
  rw [hbooked.installs, List.filter_append]

/-- Where no callback has a body accepted for the method, the accepted ones stay the same. -/
theorem installs_of_history (depth : Nat) {event : Event} {w : World EngineState τ}
    (hcs : ∀ c ∈ x.engine.history h depth event w, ¬ c.Instruments x.facts.module x.method) :
    x.installs (x.engine.deliver h depth event w).2 = x.installs w := by
  rw [installs_booked (booked_history x.engine h x.ledger 0 depth event w)]
  apply List.append_right_eq_self.mpr
  apply List.filter_eq_nil_iff.mpr
  intro i hi hmethod
  obtain ⟨c, hc, hi⟩ := List.mem_flatMap.mp hi
  obtain ⟨hm, hmethod⟩ := Bool.and_eq_true_iff.mp hmethod
  exact hcs c hc ⟨i, hi, eq_of_beq hm, eq_of_beq hmethod⟩

/-- One callback and those inside it. -/
theorem carried_callback (cs : List (Callback τ)) (hsteady : h.Steady x.ledger x.facts)
    {deliver : Event → World EngineState τ → World EngineState τ} {event : Event}
    {w : World EngineState τ} (hspared : x.facts.SparedBy event)
    (horderly : x.Orderly deliver ((x.engine.handle event).course h deliver w))
    (hcalm : (∀ c ∈ cs, ∀ q ∈ c.exchanges, ¬ q.query.Locks x.facts.module) →
      ∀ d ∈ ((x.engine.handle event).course h deliver w).deliveries, x.Calm deliver d)
    (hw : x.Intact w) :
    x.Carried w (cs ++ [x.engine.callback h deliver event w])
      ((x.engine.handle event).run h deliver w).2 := by
  have hpasses := keeps_handle hsteady hspared ⟨rfl, rfl⟩ horderly hw
  refine ⟨hpasses.intact, hpasses.later, fun hunlocked => ?_⟩
  obtain ⟨hinside, hown⟩ := List.forall_mem_append.mp hunlocked
  exact hpasses.rows (hcalm hinside) (.inr (hown _ List.mem_cons_self))

/-- A delivery. -/
theorem carried_history (hsteady : h.Steady x.ledger x.facts) (depth : Nat) :
    ∀ event w, (∀ c ∈ x.engine.history h depth event w, x.facts.SparedBy c.event) →
      x.engine.Throughout h x.Guarded depth event w → x.Intact w →
      x.Carried w (x.engine.history h depth event w) (x.engine.deliver h depth event w).2 := by
  induction depth with
  | zero =>
    intro event w hspared _ hw
    rw [deliver_eq]
    -- at this depth events are not dealt with
    have hnothing : ∀ d : Delivery EngineState τ, x.Spares (x.engine.inner h 0) d ∧
        x.Calm (x.engine.inner h 0) d := fun d => ⟨fun _ => rfl, fun _ => .refl _⟩
    exact carried_callback [] hsteady (hspared _ List.mem_cons_self)
      ⟨fun d _ hw => ⟨hw, .refl _⟩, fun d _ _ => hnothing d, fun _ d _ _ => (hnothing d).1⟩
      (fun _ d _ => (hnothing d).2) hw
  | succ depth ih =>
    intro event w hspared hguarded hw
    obtain ⟨hinside, hown⟩ := List.forall_mem_append.mp hspared
    have hcarried : ∀ d ∈ ((x.engine.handle event).course h (x.engine.inner h (depth + 1))
        w).deliveries, x.Intact d.world → x.Carried d.world (x.engine.history h depth d.event d.world)
          (x.engine.inner h (depth + 1) d.event d.world) := fun d hd =>
      ih d.event d.world (fun c hc => hinside c (List.mem_flatMap.mpr ⟨d, hd, hc⟩))
        (hguarded d hd).1
    rw [deliver_eq]
    refine carried_callback _ hsteady (hown _ List.mem_cons_self) ⟨fun d hd hw => ?_,
      fun d hd hlocked => ⟨fun _ => ?_, fun hw => ?_⟩, fun haccepts d hd hmetadata _ => ?_⟩ ?_ hw
    · exact ⟨(hcarried d hd hw).intact, (hcarried d hd hw).later⟩
    · have hunlocked := (hguarded d hd).2.1 hlocked
      exact installs_of_history depth fun c hc => not_instruments_of_unlocked (hunlocked c hc)
    · exact (hcarried d hd hw).rows ((hguarded d hd).2.1 hlocked)
    · exact installs_of_history depth ((hguarded d hd).2.2 hmetadata haccepts)
    · exact fun hunlocked d hd hw => (hcarried d hd hw).rows fun c hc =>
        hunlocked c (List.mem_flatMap.mpr ⟨d, hd, hc⟩)

/-- The world stays intact in every run. -/
theorem intact_histories (hsteady : h.Steady x.ledger x.facts) {depth : Nat} (events : List Event) :
    ∀ w, (∀ c ∈ x.engine.histories h depth events w, x.facts.SparedBy c.event) →
      x.engine.ThroughoutAll h x.Guarded depth events w → x.Intact w →
      x.Intact (x.engine.deliverAll h depth events w) := by
  induction events with
  | nil => exact fun _ _ _ hw => hw
  | cons event events ih =>
    intro w hspared hguarded hw
    obtain ⟨hfirst, hrest⟩ := List.forall_mem_append.mp hspared
    have hcarried := carried_history hsteady depth event w hfirst
      (hguarded _ List.mem_cons_self) hw
    exact ih _ hrest (fun p hp => hguarded p (List.mem_cons_of_mem _ hp)) hcarried.intact

end Watch

/-- A runtime that knows nothing but this module, and of which all functions come from the method.
Whenever a body is being read it loads the module anew and compiles the method once more. -/
def restlessHost : Host (List Installation) where
  interrupts
    | .readBody _ _, t => ([.moduleLoaded 1 .success, .compiling 2 true], t)
    | _, t => ([], t)
  answer
    | .version, t => (.ok default, t)
    | .inspection, t => (.ok (), t)
    | .register _, t => (.ok (), t)
    | .unregister, t => (.ok (), t)
    | .functionInfo _, t => (.ok ⟨1, constantRequest.method⟩, t)
    | .moduleInfo _, t => (.ok constantFacts.info, t)
    | .openMetadata _, t => (.ok (), t)
    | .metadata _, t => (constantFacts.view, t)
    | .define _ row, t => (.ok (.ofParts row.table 1), t)
    | .readBody m method, t =>
      (.ok (((t.filter fun i => i.module == m && i.method == method).getLast?.map
        Installation.body).getD constantRequest.body), t)
    | .install m method body, t => (.ok (), t ++ [⟨m, method, body⟩])

/-- Its own account of installations. -/
def restlessLedger : restlessHost.Ledger where
  installs := id
  interrupts q t := by cases q <;> rfl
  answer q t := by
    cases q with
    | install => rfl
    | _ => exact (List.append_nil t).symm

/-- The body that is answered is that of the last installation, if there is one. -/
theorem below_last {installs : List Installation} {i : Installation}
    (hlast : installs.getLast? = some i) (original : List UInt8) :
    Below (.ok ((installs.getLast?.map Installation.body).getD original)) (.ok i.body) := by
  rw [hlast]
  exact .refl _

theorem steady_restlessHost : restlessHost.Steady restlessLedger constantFacts where
  info _ := .refl _
  metadata _ := ⟨fun _ => .refl _, fun _ => .refl _, rfl⟩
  asked _ _ hprops := (congrArg MethodProps.token (Except.ok.inj hprops)).symm
  body _ _ _ hlast := below_last hlast constantRequest.body

/-- The method is compiled for two functions, and the module is loaded anew in between. -/
def restlessEvents : List Event :=
  [.moduleLoaded 1 .success, .compiling 1 true, .moduleLoaded 1 .success, .compiling 3 true]

end CilProbe
