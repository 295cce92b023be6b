/-
CilProbe/Proofs/Engine/Loaded.lean

Which modules are recorded.  At every moment of every run the modules with a record are those
with a token cache, and the cache in a record is the one that its module has (`InStep`).
Which modules these are can be read off what happened so far: a module is recorded exactly if
it was loaded, and nothing that happened behind the last time it was loaded made the engine
forget it (`recorded_iff_loaded`).
-/
import CilProbe.Proofs.Engine.Interplay

namespace CilProbe

/-! ### Records and token caches -/

namespace EngineState

/-- Records and token caches belong together, and no module has the one without the other. -/
structure InStep (s : EngineState) : Prop where
  coherent : s.Coherent
  recorded : ∀ (m : ModuleId) (c : CacheId), s.emitter.live[m]? = some c →
    ∃ id : RecordId, s.live[m]? = some id

/-- A module is recorded, and it is in the assembly. -/
def RecordedIn (s : EngineState) (m : ModuleId) (a : AssemblyId) : Prop :=
  ∃ id r, s.find? m = some (id, r) ∧ r.assembly = a

theorem inStep_fresh (retryLimit : Nat) : (fresh retryLimit).InStep where
  coherent := coherent_fresh retryLimit
  recorded m c h := by
    have hnone : (fresh retryLimit).emitter.live[m]? = none := Std.ExtTreeMap.getElem?_empty
    cases hnone.symm.trans h

namespace InStep

variable {s : EngineState} (hs : s.InStep)
include hs

/-- The modules with a record are those with a token cache. -/
theorem isSome_find? (m : ModuleId) : (s.find? m).isSome = s.emitter.live[m]?.isSome := by
  rw [Bool.eq_iff_iff, Option.isSome_iff_exists, Option.isSome_iff_exists]
  constructor
  · rintro ⟨⟨id, r⟩, hfind⟩
    obtain ⟨hid, -⟩ := find?_eq_some.mp hfind
    obtain ⟨r, -, -, hcache⟩ := hs.coherent.records m id hid
    exact ⟨r.cache, hcache⟩
  · rintro ⟨c, hc⟩
    obtain ⟨id, hid⟩ := hs.recorded m c hc
    obtain ⟨r, hr, -, -⟩ := hs.coherent.records m id hid
    exact ⟨(id, r), find?_eq_some.mpr ⟨hid, hr⟩⟩

/-- The token cache in a record is the one that its module has. -/
theorem cache_of_find? {m : ModuleId} {id : RecordId} {r : ModuleRecord}
    (hfind : s.find? m = some (id, r)) : r.module = m ∧ s.emitter.live[m]? = some r.cache ∧
      (s.emitter.cache r.cache).module = m := by
  obtain ⟨hid, hr⟩ := find?_eq_some.mp hfind
  obtain ⟨r', hr', hm, hcache⟩ := hs.coherent.records m id hid
  obtain rfl := Option.some.inj (hr'.symm.trans hr)
  exact ⟨hm, hcache, (hs.coherent.caches m r'.cache hcache).2⟩

/-- An engine that was stopped has neither. -/
theorem empty_of_tornDown (hdown : s.tornDown = true) : s.live = ∅ ∧ s.emitter.live = ∅ := by
  have hlive : ∀ m : ModuleId, s.live[m]? = none := hs.coherent.stopped hdown
  refine ⟨Std.ExtTreeMap.ext_getElem? fun m => ?_, Std.ExtTreeMap.ext_getElem? fun m => ?_⟩
  · exact (hlive m).trans Std.ExtTreeMap.getElem?_empty.symm
  · refine Eq.trans ?_ Std.ExtTreeMap.getElem?_empty.symm
    cases hc : s.emitter.live[m]? with
    | none => rfl
    | some c =>
      obtain ⟨id, hid⟩ := hs.recorded m c hc
      cases (hlive m).symm.trans hid

theorem not_recordedIn_of_tornDown (hdown : s.tornDown = true) (m : ModuleId) (a : AssemblyId) :
    ¬ s.RecordedIn m a := by
  rintro ⟨id, r, hfind, -⟩
  cases (hs.coherent.stopped hdown m).symm.trans (find?_eq_some.mp hfind).1

theorem remove (m : ModuleId) : (s.remove m).InStep where
  coherent := hs.coherent.remove m
  recorded m' c h := by
    rw [kept_remove] at h
    split at h
    · cases h
    · next hne =>
      obtain ⟨id, hid⟩ := hs.recorded m' c h
      exact ⟨id, by rw [live_remove, if_neg hne, hid]⟩

theorem tearDown : s.tearDown.2.InStep where
  coherent := hs.coherent.tearDown
  recorded m c h := by
    unfold EngineState.tearDown at h ⊢
    split at h
    · next hdown =>
      rw [if_pos hdown]
      exact hs.recorded m c h
    · have hnone : (∅ : Std.ExtTreeMap ModuleId CacheId)[m]? = none := Std.ExtTreeMap.getElem?_empty
      cases hnone.symm.trans h

theorem enroll (m : ModuleId) (info : ModuleInfo) (candidates : List Rule) :
    (Engine.enroll s m info candidates).InStep where
  coherent := hs.coherent.enroll m info candidates
  recorded m' c h := by
    by_cases hdown : s.tornDown = true
    · rw [enroll_eq, if_pos hdown] at h ⊢
      have h : ((s.emitter.cacheOf m).2.evict m).live[m']? = some c := h
      rw [Emitter.live_evict, Emitter.live_cacheOf] at h
      split at h
      · cases h
      · exact hs.recorded m' c h
    · rw [live_enroll hdown]
      rw [enroll_eq, if_neg hdown] at h
      have h : (s.emitter.cacheOf m).2.live[m']? = some c := h
      rw [Emitter.live_cacheOf] at h
      split
      · exact ⟨_, rfl⟩
      · next hne =>
        rw [if_neg hne] at h
        exact hs.recorded m' c h

end InStep

theorem recordedIn_remove (s : EngineState) (m m' : ModuleId) (a : AssemblyId) :
    (s.remove m).RecordedIn m' a ↔ m ≠ m' ∧ s.RecordedIn m' a := by
  unfold RecordedIn
  simp only [find?_eq_some, live_remove]
  by_cases hm : m = m'
  · simp [hm]
  · simp only [ne_eq, hm, not_false_iff, true_and]
    rfl

/-- A module's record is the record of that module. -/
def Filed (s : EngineState) : Prop :=
  ∀ (m : ModuleId) (id : RecordId), s.live[m]? = some id → ∃ r, s.record? id = some r ∧ r.module = m

theorem Filed.mem_modulesOf {s : EngineState} (hs : s.Filed) (m : ModuleId) (a : AssemblyId) :
    m ∈ s.modulesOf a ↔ s.RecordedIn m a := by
  unfold modulesOf liveRecords RecordedIn
  simp only [List.mem_map, List.mem_filter, List.mem_filterMap, Prod.exists, beq_iff_eq,
    Std.ExtTreeMap.mem_toList_iff_getElem?_eq_some, find?_eq_some]
  constructor
  · rintro ⟨r, ⟨⟨m', id, hid, hr⟩, ha⟩, hm⟩
    obtain ⟨r', hr', hm'⟩ := hs m' id hid
    obtain rfl := Option.some.inj (hr'.symm.trans hr)
    obtain rfl := hm'.symm.trans hm
    exact ⟨id, r', ⟨hid, hr⟩, ha⟩
  · rintro ⟨id, r, ⟨hid, hr⟩, ha⟩
    obtain ⟨r', hr', hm⟩ := hs m id hid
    obtain rfl := Option.some.inj (hr'.symm.trans hr)
    exact ⟨r', ⟨⟨m, id, hid, hr⟩, ha⟩, hm⟩

theorem InStep.filed {s : EngineState} (hs : s.InStep) : s.Filed := fun m id hid => by
  obtain ⟨r, hr, hm, -⟩ := hs.coherent.records m id hid
  exact ⟨r, hr, hm⟩

/-- Unloading an assembly unloads its modules and no others. -/
theorem InStep.recordedIn_removeAssembly {s : EngineState} (hs : s.InStep) (a : AssemblyId)
    (m : ModuleId) (a' : AssemblyId) :
    (s.removeAssembly a).RecordedIn m a' ↔ a ≠ a' ∧ s.RecordedIn m a' := by
  have hall : ∀ (modules : List ModuleId) (s : EngineState),
      (modules.foldl EngineState.remove s).RecordedIn m a' ↔ m ∉ modules ∧ s.RecordedIn m a' := by
    intro modules
    induction modules with
    | nil => exact fun s => (and_iff_right List.not_mem_nil).symm
    | cons m' modules ih =>
      intro s
      rw [List.foldl_cons, ih, recordedIn_remove, List.mem_cons, not_or, ← and_assoc]
      exact and_congr_left fun _ => ⟨fun h => ⟨fun heq => h.2 heq.symm, h.1⟩,
        fun h => ⟨h.2, fun heq => h.1 heq.symm⟩⟩
  unfold removeAssembly
  rw [hall, hs.filed.mem_modulesOf]
  refine and_congr_left fun hrecorded => not_congr ⟨fun h => ?_, fun h => h ▸ hrecorded⟩
  -- a module is in one assembly
  obtain ⟨id, r, hfind, rfl⟩ := h
  obtain ⟨id', r', hfind', rfl⟩ := hrecorded
  obtain ⟨-, rfl⟩ := Prod.mk.inj (Option.some.inj (hfind.symm.trans hfind'))
  rfl

end EngineState

namespace Engine

/-- Whatever an engine does, records and token caches stay in step. -/
theorem preserved_inStep (e : Engine) : e.Preserved EngineState.InStep := by
  intro s s' hstep hs
  cases hstep with
  | counted k =>
    exact ⟨⟨hs.coherent.stopped, hs.coherent.caches, hs.coherent.records⟩, hs.recorded⟩
  | finished r =>
    rcases r with err | - | outcome
    · exact ⟨⟨hs.coherent.stopped, hs.coherent.caches, hs.coherent.records⟩, hs.recorded⟩
    · exact hs
    · exact ⟨⟨hs.coherent.stopped, hs.coherent.caches, hs.coherent.records⟩, hs.recorded⟩
  | cached id row => exact ⟨hs.coherent.modifyCache fun _ => rfl, hs.recorded⟩
  | claimed id method integration => exact ⟨hs.coherent.claim id method integration, hs.recorded⟩
  | enrolled m info => exact hs.enroll m info _
  | removed m => exact hs.remove m
  | assemblyRemoved a => exact removeAssembly_preserves (fun _ m hs => hs.remove m) hs a
  | tornDown => exact hs.tearDown

/-! ### Loading -/

/-- A load behind the answer to the second question. -/
def afterOpen (e : Engine) (m : ModuleId) (info : ModuleInfo) :
    Except Error Unit → Proc EngineState Bool
  | .ok _ => .read fun s => .write (e.enrolled s m info) (.done false)
  | .error _ => .done false

/-- A load behind the answer to the first question. -/
def afterInfo (e : Engine) (m : ModuleId) :
    Except Error ModuleInfo → Proc EngineState Bool
  | .ok info =>
    if (e.registry.candidatesFor ⟨info.assemblyName, info.assemblyVersion⟩).isEmpty then
      e.afterOpen m info (.ok ())
    else .ask (.openMetadata m) (e.afterOpen m info)
  | .error _ => .done false

theorem act_moduleLoaded (e : Engine) (m : ModuleId) (status : StatusCode) :
    ((e.act (.moduleLoaded m status)).bind fun _ => .done false) =
      if status.isOk then .ask (.moduleInfo m) (e.afterInfo m)
      else .done false := by
  show ((if status.isOk then _ else _ : Proc EngineState Unit).bind _) = _
  split
  · show Proc.ask (.moduleInfo m) _ = .ask (.moduleInfo m) _
    apply congrArg
    funext answer
    cases answer with
    | error err => rfl
    | ok info =>
      show Proc.bind (Proc.bind (ExceptT.run (if
        (e.registry.candidatesFor ⟨info.assemblyName, info.assemblyVersion⟩).isEmpty = true then _
        else _ : EngineAttempt Unit)) _) _ = if _ then _ else _
      split
      · rfl
      · show Proc.ask (.openMetadata m) _ = .ask (.openMetadata m) _
        apply congrArg
        funext answer
        cases answer with
        | error err => rfl
        | ok _ => rfl
  · rfl

/-! ### Moves that wait -/

/-- A load that waits for an answer. -/
inductive Loading (e : Engine) : Pending → Prop
  | info {m : ModuleId} {status : StatusCode} {before : EngineState} : status.isOk = true →
    Loading e ⟨.event (.moduleLoaded m status), before, [], .moduleInfo m, e.afterInfo m⟩
  | opened {m : ModuleId} {status : StatusCode} {before : EngineState} {info : ModuleInfo} :
    status.isOk = true →
    (e.registry.candidatesFor ⟨info.assemblyName, info.assemblyVersion⟩).isEmpty = false →
    Loading e ⟨.event (.moduleLoaded m status), before, [⟨.moduleInfo m, .ok info⟩],
      .openMetadata m, e.afterOpen m info⟩

/-- The engine changes something, but not which modules are recorded. -/
structure Stays (e : Engine) (s s' : EngineState) : Prop where
  step : e.Step s s'
  live : s'.live = s.live
  assembly : ∀ id, (s'.record? id).map ModuleRecord.assembly =
    (s.record? id).map ModuleRecord.assembly

/-- A move other than a load that waits for an answer. -/
structure Calm (e : Engine) (f : Pending) : Prop where
  move : ∀ m status, f.move ≠ .event (.moduleLoaded m status)
  next : ∀ a s, (f.next a).Permitted (fun _ _ => True) e.Stays s

/-- What is known of a scene. -/
structure Tidy (e : Engine) (s : Scene) : Prop where
  state : s.state.InStep
  waiting : ∀ f ∈ s.waiting, e.Loading f ∨ e.Calm f

theorem recordedIn_of_stays {e : Engine} {s s' : EngineState}
    (h : Relation.ReflTransGen e.Stays s s') (m : ModuleId) (a : AssemblyId) :
    s'.RecordedIn m a ↔ s.RecordedIn m a := by
  induction h with
  | refl => rfl
  | tail _ hstep ih =>
    rw [← ih]
    unfold EngineState.RecordedIn
    simp only [EngineState.find?_eq_some, hstep.live]
    constructor
    · rintro ⟨id, r, ⟨hid, hr⟩, ha⟩
      have hsame := hstep.assembly id
      rw [hr] at hsame
      obtain ⟨r', hr', ha'⟩ := Option.map_eq_some_iff.mp hsame.symm
      exact ⟨id, r', ⟨hid, hr'⟩, ha'.trans ha⟩
    · rintro ⟨id, r, ⟨hid, hr⟩, ha⟩
      have hsame := hstep.assembly id
      rw [hr] at hsame
      obtain ⟨r', hr', ha'⟩ := Option.map_eq_some_iff.mp hsame
      exact ⟨id, r', ⟨hid, hr'⟩, ha'.trans ha⟩

theorem inStep_of_stays {e : Engine} {s s' : EngineState}
    (h : Relation.ReflTransGen e.Stays s s') (hs : s.InStep) : s'.InStep := by
  induction h with
  | refl => exact hs
  | tail _ hstep ih => exact e.preserved_inStep _ _ hstep.step ih

/-- A compilation changes nothing about which modules are recorded. -/
theorem permitted_compiling (e : Engine) (function : FunctionId) (mayBlock : Bool)
    (s : EngineState) :
    (e.act (.compiling function mayBlock)).Permitted Asks e.Stays s := by
  refine Proc.Permitted.bind (p := (e.compile function).run) ?_ fun r s => ⟨⟨.finished s r, ?_, ?_⟩,
    trivial⟩
  · refine permitted_compile function ?_ (fun s id method integration =>
      ⟨.claimed s id method integration, rfl, fun id' => ?_⟩) s
    · rintro s _ ⟨id, row, rfl⟩
      exact ⟨.cached s id row, rfl, fun _ => rfl⟩
    · rw [EngineState.record?_claim, Option.map_map]
      rfl
  · rcases r with err | - | outcome
    · rfl
    · rfl
    · rfl
  · rcases r with err | - | outcome
    · exact fun _ => rfl
    · exact fun _ => rfl
    · exact fun _ => rfl

end Engine

/-! ### Which modules are loaded -/

namespace Incident

/-- A module of the assembly was loaded: the runtime said what it is and opened its metadata, if
some rule may apply to it, and the engine was not stopped meanwhile. -/
def Loads (e : Engine) (m : ModuleId) (a : AssemblyId) : Incident → Prop
  | .ended (.event (.moduleLoaded m' status)) _ exchanges s =>
    m' = m ∧ status.isOk = true ∧ s.tornDown = false ∧ ∃ info, info.assembly = a ∧
      exchanges = ⟨.moduleInfo m, .ok info⟩ ::
        if (e.registry.candidatesFor ⟨info.assemblyName, info.assemblyVersion⟩).isEmpty then []
        else [⟨.openMetadata m, .ok ()⟩]
  | _ => False

/-- The module is unloaded, or its assembly, or the engine is stopped. -/
def Unloads (m : ModuleId) (a : AssemblyId) : Incident → Prop
  | .began (.event (.moduleUnloading m')) _ => m' = m
  | .began (.event (.assemblyUnloading a')) _ => a' = a
  | .began (.event .shuttingDown) _ | .began .detach _ | .began .drop _ | .began .tearDown _ => True
  | _ => False

end Incident

/-- The last time that the module was loaded it was in the assembly, and it was not unloaded
since. -/
def Engine.Loaded (e : Engine) (m : ModuleId) (a : AssemblyId) (log : List Incident) : Prop :=
  ∃ past x future, log = past ++ x :: future ∧ x.Loads e m a ∧
    ∀ y ∈ future, (∀ a', ¬ y.Loads e m a') ∧ ¬ y.Unloads m a

namespace Engine

theorem not_loaded_nil (e : Engine) (m : ModuleId) (a : AssemblyId) : ¬ e.Loaded m a [] := by
  rintro ⟨past, x, future, heq, -⟩
  cases past with
  | nil => cases heq
  | cons => cases heq

/-- What one more incident does to it. -/
theorem loaded_snoc (e : Engine) (m : ModuleId) (a : AssemblyId) (log : List Incident)
    (x : Incident) : e.Loaded m a (log ++ [x]) ↔
      x.Loads e m a ∨ e.Loaded m a log ∧ (∀ a', ¬ x.Loads e m a') ∧ ¬ x.Unloads m a := by
  constructor
  · rintro ⟨past, y, future, heq, hloads, hrest⟩
    rcases List.eq_nil_or_concat future with rfl | ⟨future, z, rfl⟩
    · obtain ⟨rfl, hlast⟩ := List.append_inj' heq rfl
      obtain rfl := (List.cons.inj hlast).1
      exact .inl hloads
    · rw [List.concat_eq_append] at heq hrest
      rw [← List.cons_append, ← List.append_assoc] at heq
      obtain ⟨rfl, hlast⟩ := List.append_inj' heq rfl
      obtain rfl := (List.cons.inj hlast).1
      exact .inr ⟨⟨past, y, future, rfl, hloads, fun z hz => hrest z (List.mem_append_left _ hz)⟩,
        hrest x (List.mem_append_right _ List.mem_cons_self)⟩
  · rintro (hloads | ⟨⟨past, y, future, rfl, hloads, hrest⟩, hlast⟩)
    · exact ⟨log, x, [], rfl, hloads, fun _ hy => absurd hy List.not_mem_nil⟩
    · refine ⟨past, y, future ++ [x], by rw [List.append_assoc, List.cons_append], hloads, ?_⟩
      intro z hz
      rcases List.mem_append.mp hz with hz | hz
      · exact hrest z hz
      · obtain rfl := List.mem_singleton.mp hz
        exact hlast

theorem loaded_of_last {e : Engine} {m : ModuleId} {a : AssemblyId} {log : List Incident}
    {x y : Incident} (hy : y.Loads e m a) : e.Loaded m a (log ++ [x, y]) := by
  rw [← List.singleton_append, ← List.append_assoc]
  exact (loaded_snoc e m a _ y).mpr (.inl hy)

/-- Most incidents have nothing to do with it. -/
def Neutral (e : Engine) (x : Incident) : Prop := ∀ m a, ¬ x.Loads e m a ∧ ¬ x.Unloads m a

theorem loaded_append_of_neutral (e : Engine) (m : ModuleId) (a : AssemblyId) (log : List Incident)
    {new : List Incident} (hnew : ∀ x ∈ new, e.Neutral x) :
    e.Loaded m a (log ++ new) ↔ e.Loaded m a log := by
  induction new generalizing log with
  | nil => rw [List.append_nil]
  | cons x new ih =>
    have hx := hnew x List.mem_cons_self
    rw [← List.singleton_append, ← List.append_assoc,
      ih (log ++ [x]) fun y hy => hnew y (List.mem_cons_of_mem _ hy), loaded_snoc]
    exact ⟨fun h => h.elim (fun h => absurd h (hx m a).1) And.left,
      fun h => .inr ⟨h, fun a' => (hx m a').1, (hx m a).2⟩⟩

/-! ### Turns -/

/-- A log that says which modules are recorded. -/
def Tells (e : Engine) (log : List Incident) (s : EngineState) : Prop :=
  ∀ m a, s.RecordedIn m a ↔ e.Loaded m a log

/-- An event behind the check that the engine was not stopped. -/
theorem settle_handle (e : Engine) (event : Event) (s : EngineState) :
    ((e.handle event).bind fun _ => .done false).settle s =
      if s.tornDown then (.done false, s)
      else ((e.act event).bind fun _ => .done false).settle (s.countEvent event.kind) := by
  rw [handle_eq]
  show (Proc.bind (if s.tornDown then _ else _) _).settle s = _
  split
  · rfl
  · show (Proc.bind (Proc.bind _ _) _).settle (s.countEvent event.kind) = _
    rw [Proc.bind_assoc]
    rfl

section Turns

variable {e : Engine} {log : List Incident} {s : EngineState} (held : Bool) {waiting : List Pending}
  (hs : s.InStep) (hwaiting : ∀ f ∈ waiting, e.Loading f ∨ e.Calm f)
include hs hwaiting

/-- A move that is not about modules, up to its next question. -/
theorem land_calm {move : Move} (hmove : ∀ m status, move ≠ .event (.moduleLoaded m status))
    (before : EngineState) (exchanges : List Exchange) {p : Proc EngineState Bool}
    (hp : p.Permitted (fun _ _ => True) e.Stays s) :
    e.Tidy (Pending.land move before exchanges held waiting (p.settle s)).2 ∧
      Relation.ReflTransGen e.Stays s
        (Pending.land move before exchanges held waiting (p.settle s)).2.state ∧
      ∀ x ∈ (Pending.land move before exchanges held waiting (p.settle s)).1, e.Neutral x := by
  obtain ⟨hreach, hrest⟩ := hp.settle
  rcases hsettle : p.settle s with ⟨made | ⟨q, next⟩, s'⟩
  · rw [hsettle] at hreach
    refine ⟨⟨inStep_of_stays hreach hs, hwaiting⟩, hreach, fun x hx => ?_⟩
    obtain rfl := List.mem_singleton.mp hx
    refine fun m a => ⟨fun hloads => ?_, id⟩
    cases move with
    | event event =>
      cases event with
      | moduleLoaded m' status => exact hmove m' status rfl
      | _ => exact hloads
    | _ => exact hloads
  · rw [hsettle] at hreach hrest
    refine ⟨⟨inStep_of_stays hreach hs, fun f hf => ?_⟩, hreach, fun x hx => ?_⟩
    · rcases List.mem_cons.mp hf with rfl | hf
      · exact .inr ⟨hmove, hrest.2⟩
      · exact hwaiting f hf
    · obtain rfl := List.mem_singleton.mp hx
      exact fun m a => ⟨id, id⟩

omit hwaiting in
/-- A module that is recorded is found, in place of an older record of it. -/
theorem find?_enrolled (hup : s.tornDown = false) (m : ModuleId) (info : ModuleInfo)
    (m' : ModuleId) : (e.enrolled s m info).find? m' =
      if m = m' then some (s.records.size, recordOf m info
        (e.registry.candidatesFor ⟨info.assemblyName, info.assemblyVersion⟩)
        (s.emitter.cacheOf m).1)
      else s.find? m' := by
  have hdown : s.tornDown ≠ true := Bool.eq_false_iff.mp hup
  unfold enrolled EngineState.find?
  rw [EngineState.live_enroll hdown]
  split
  · rw [Option.bind_some, EngineState.record?_enroll hdown]
    rfl
  · cases hid : s.live[m']? with
    | none => rfl
    | some id =>
      obtain ⟨r, hr, -⟩ := hs.coherent.records m' id hid
      rw [Option.bind_some, Option.bind_some, hr, EngineState.record?_enroll_of_some _ _ _ hr]

omit hwaiting in
/-- So the log with the end of the load tells which modules are recorded. -/
theorem tells_enrolled (htells : e.Tells log s) {m : ModuleId} {status : StatusCode}
    {before : EngineState} {exchanges : List Exchange} {info : ModuleInfo}
    (hstatus : status.isOk = true)
    (hexchanges : exchanges = ⟨.moduleInfo m, .ok info⟩ ::
      if (e.registry.candidatesFor ⟨info.assemblyName, info.assemblyVersion⟩).isEmpty then []
      else [⟨.openMetadata m, .ok ()⟩]) :
    e.Tells (log ++ [.ended (.event (.moduleLoaded m status)) before exchanges
      (e.enrolled s m info)]) (e.enrolled s m info) := by
  intro m' a
  rw [loaded_snoc, ← htells]
  have hdown := tornDown_enrolled (e := e) s m info
  cases hup : s.tornDown with
  | true =>
    rw [hup] at hdown
    refine iff_of_false ((hs.enroll m info _).not_recordedIn_of_tornDown hdown m' a) ?_
    rintro (⟨-, -, hup', -⟩ | ⟨hrecorded, -⟩)
    · exact Bool.false_ne_true (hup'.symm.trans hdown)
    · exact hs.not_recordedIn_of_tornDown hup m' a hrecorded
  | false =>
    rw [hup] at hdown
    unfold EngineState.RecordedIn
    rw [find?_enrolled hs hup]
    by_cases hm : m = m'
    · obtain rfl := hm
      rw [if_pos rfl]
      constructor
      · rintro ⟨_, _, ⟨⟩, ha⟩
        exact .inl ⟨rfl, hstatus, hdown, info, ha, hexchanges⟩
      · rintro (⟨-, -, -, info', ha, hexchanges'⟩ | ⟨-, hother, -⟩)
        · -- what the module is was answered once
          obtain ⟨⟨⟩, -⟩ := List.cons.inj (hexchanges.symm.trans hexchanges')
          exact ⟨_, _, rfl, ha⟩
        · exact absurd ⟨rfl, hstatus, hdown, info, rfl, hexchanges⟩ (hother info.assembly)
    · rw [if_neg hm]
      constructor
      · exact fun h => .inr ⟨h, fun _ hloads => hm hloads.1, id⟩
      · rintro (⟨hm', -⟩ | ⟨h, -⟩)
        · exact absurd hm' hm
        · exact h

end Turns

section Tells

variable {e : Engine} {log new : List Incident} {s s' : EngineState}

theorem tells_of_neutral (htells : e.Tells log s) (hnew : ∀ x ∈ new, e.Neutral x)
    (hsame : ∀ m a, s'.RecordedIn m a ↔ s.RecordedIn m a) : e.Tells (log ++ new) s' := by
  intro m a
  rw [hsame, htells, loaded_append_of_neutral e m a log hnew]

/-- The end of a load that comes to nothing. -/
theorem neutral_ended {move : Move} {before : EngineState} {exchanges : List Exchange}
    (hnot : ∀ m a, ¬ (Incident.ended move before exchanges s).Loads e m a) :
    e.Neutral (.ended move before exchanges s) := fun m a => ⟨hnot m a, id⟩

theorem neutral_asked (q : Query) (s : EngineState) : e.Neutral (.asked q s) := fun _ _ => ⟨id, id⟩

theorem neutral_answered (x : Exchange) (s : EngineState) : e.Neutral (.answered x s) :=
  fun _ _ => ⟨id, id⟩

/-- Two neutral incidents, and nothing happened to the engine. -/
theorem tells_neutrally (htells : e.Tells log s) {x y : Incident} (hx : e.Neutral x)
    (hy : e.Neutral y) : e.Tells (log ++ [x, y]) s :=
  tells_of_neutral htells (List.forall_mem_cons.mpr ⟨hx, List.forall_mem_singleton.mpr hy⟩)
    fun _ _ => .rfl

/-- The last question of a load is answered. -/
theorem tells_ended (hs : s.InStep) (htells : e.Tells log s) {m : ModuleId} {status : StatusCode}
    {before : EngineState} {exchanges : List Exchange} {info : ModuleInfo}
    (hstatus : status.isOk = true)
    (hexchanges : exchanges = ⟨.moduleInfo m, .ok info⟩ ::
      if (e.registry.candidatesFor ⟨info.assemblyName, info.assemblyVersion⟩).isEmpty then []
      else [⟨.openMetadata m, .ok ()⟩]) (x : Exchange) :
    e.Tells (log ++ [.answered x s, .ended (.event (.moduleLoaded m status)) before exchanges
      (e.enrolled s m info)]) (e.enrolled s m info) := by
  have hanswered : e.Tells (log ++ [.answered x s]) s :=
    tells_of_neutral htells (List.forall_mem_singleton.mpr (neutral_answered x s)) fun _ _ => .rfl
  rw [← List.singleton_append, ← List.append_assoc]
  exact tells_enrolled hs hanswered hstatus hexchanges

/-- A move that makes the engine forget something, and what comes behind it. -/
theorem tells_of_unloads (htells : e.Tells log s) {x y : Incident}
    (hx : ∀ m a, ¬ x.Loads e m a) (hy : e.Neutral y)
    (hs' : ∀ m a, s'.RecordedIn m a ↔ ¬ x.Unloads m a ∧ s.RecordedIn m a) :
    e.Tells (log ++ [x, y]) s' := by
  intro m a
  have hlast : ∀ z ∈ [y], e.Neutral z := fun z hz => List.mem_singleton.mp hz ▸ hy
  rw [← List.singleton_append, ← List.append_assoc, loaded_append_of_neutral e m a _ hlast,
    loaded_snoc, hs', htells]
  constructor
  · exact fun h => .inr ⟨h.2, fun a' => hx m a', h.1⟩
  · exact fun h => h.elim (fun h => absurd h (hx m a)) fun h => ⟨h.2.2, h.1⟩

/-- What stops the engine makes it forget everything. -/
theorem recordedIn_tearDown (hs : s.InStep) {x : Incident} (hx : ∀ m a, x.Unloads m a)
    (m : ModuleId) (a : AssemblyId) :
    s.tearDown.2.RecordedIn m a ↔ ¬ x.Unloads m a ∧ s.RecordedIn m a :=
  iff_of_false (hs.tearDown.not_recordedIn_of_tornDown (EngineState.tornDown_tearDown s) m a)
    fun h => h.1 (hx m a)

/-- What counting an event changes. -/
theorem stays_counted (e : Engine) (s : EngineState) (k : EventKind) : e.Stays s (s.countEvent k) :=
  ⟨.counted s k, rfl, fun _ => rfl⟩

section Landing

variable {held : Bool} {waiting : List Pending}

/-- A move that is not about modules. -/
theorem tells_calm (hs : s.InStep) (hwaiting : ∀ f ∈ waiting, e.Loading f ∨ e.Calm f)
    (htells : e.Tells log s) {x : Incident} (hx : e.Neutral x) {move : Move}
    (hmove : ∀ m status, move ≠ .event (.moduleLoaded m status)) (before : EngineState)
    (exchanges : List Exchange) {p : Proc EngineState Bool}
    (hp : p.Permitted (fun _ _ => True) e.Stays s) :
    e.Tidy (Pending.land move before exchanges held waiting (p.settle s)).2 ∧
      e.Tells (log ++ x :: (Pending.land move before exchanges held waiting (p.settle s)).1)
        (Pending.land move before exchanges held waiting (p.settle s)).2.state := by
  obtain ⟨htidy, hreach, hnew⟩ := land_calm held hs hwaiting hmove before exchanges hp
  refine ⟨htidy, tells_of_neutral htells (fun y hy => ?_) fun m a => recordedIn_of_stays hreach m a⟩
  rcases List.mem_cons.mp hy with rfl | hy
  · exact hx
  · exact hnew y hy

/-- An event that reaches an engine which was not stopped. -/
theorem tells_act (hs : s.InStep) (hwaiting : ∀ f ∈ waiting, e.Loading f ∨ e.Calm f)
    (htells : e.Tells log s) (event : Event) :
    e.Tidy (Pending.land (.event event) s [] held waiting
        (((e.act event).bind fun _ => .done false).settle (s.countEvent event.kind))).2 ∧
      e.Tells (log ++ .began (.event event) s :: (Pending.land (.event event) s [] held waiting
          (((e.act event).bind fun _ => .done false).settle (s.countEvent event.kind))).1)
        (Pending.land (.event event) s [] held waiting
          (((e.act event).bind fun _ => .done false).settle (s.countEvent event.kind))).2.state := by
  have hcounted : (s.countEvent event.kind).InStep :=
    e.preserved_inStep _ _ (.counted s event.kind) hs
  have hsame : e.Tells log (s.countEvent event.kind) := fun m a =>
    (recordedIn_of_stays (.single (stays_counted e s event.kind)) m a).trans (htells m a)
  cases event with
  | moduleLoaded m status =>
    rw [act_moduleLoaded]
    have hbegan : e.Neutral (.began (.event (.moduleLoaded m status)) s) := fun _ _ => ⟨id, id⟩
    split
    · next hstatus =>
      exact ⟨⟨hcounted, List.forall_mem_cons.mpr ⟨.inl (.info hstatus), hwaiting⟩⟩,
        tells_neutrally hsame hbegan (neutral_asked _ _)⟩
    · next hstatus =>
      exact ⟨⟨hcounted, hwaiting⟩, tells_neutrally hsame hbegan
        (neutral_ended fun _ _ hloads => hstatus hloads.2.1)⟩
  | moduleUnloading m =>
    exact ⟨⟨hcounted.remove m, hwaiting⟩, tells_of_unloads hsame (fun _ _ => id)
      (neutral_ended fun _ _ => id) fun m' a => EngineState.recordedIn_remove _ m m' a⟩
  | compiling function mayBlock =>
    exact tells_calm hcounted hwaiting hsame (fun _ _ => ⟨id, id⟩) (fun _ _ h => by cases h) s []
      (((permitted_compiling e function mayBlock _).mono (fun _ _ _ => trivial) fun _ _ => id).bind
        fun _ _ => trivial)
  | assemblyUnloading a =>
    exact ⟨⟨e.preserved_inStep _ _ (.assemblyRemoved _ a) hcounted, hwaiting⟩,
      tells_of_unloads hsame (fun _ _ => id) (neutral_ended fun _ _ => id)
        fun m a' => hcounted.recordedIn_removeAssembly a m a'⟩
  | shuttingDown =>
    exact ⟨⟨hcounted.tearDown, hwaiting⟩, tells_of_unloads hsame (fun _ _ => id)
      (neutral_ended fun _ _ => id) (recordedIn_tearDown hcounted fun _ _ => trivial)⟩

/-- A load whose question is answered. -/
theorem tells_loading (hs : s.InStep) (hwaiting : ∀ f ∈ waiting, e.Loading f ∨ e.Calm f)
    (htells : e.Tells log s) {f : Pending} (hf : e.Loading f) (a : f.query.Answer) :
    e.Tidy (Pending.land f.move f.before (f.exchanges ++ [⟨f.query, a⟩]) held waiting
        ((f.next a).settle s)).2 ∧
      e.Tells (log ++ .answered ⟨f.query, a⟩ s ::
          (Pending.land f.move f.before (f.exchanges ++ [⟨f.query, a⟩]) held waiting
            ((f.next a).settle s)).1)
        (Pending.land f.move f.before (f.exchanges ++ [⟨f.query, a⟩]) held waiting
          ((f.next a).settle s)).2.state := by
  cases hf with
  | @info m status before hstatus =>
    cases a with
    | error err =>
      refine ⟨⟨hs, hwaiting⟩, tells_neutrally htells (neutral_answered _ s)
        (neutral_ended fun m' a hloads => ?_)⟩
      obtain ⟨-, -, -, info, -, hexchanges⟩ := hloads
      cases (List.cons.inj hexchanges).1
    | ok info =>
      show e.Tidy (Pending.land _ _ _ _ _ ((if _ then _ else _ : Proc EngineState Bool).settle s)).2 ∧
        e.Tells (log ++ _ :: (Pending.land _ _ _ _ _
          ((if _ then _ else _ : Proc EngineState Bool).settle s)).1) (Pending.land _ _ _ _ _
          ((if _ then _ else _ : Proc EngineState Bool).settle s)).2.state
      split
      · next hempty =>
        exact ⟨⟨hs.enroll m info _, hwaiting⟩,
          tells_ended hs htells hstatus (by rw [if_pos hempty]; rfl) _⟩
      · next hsome =>
        exact ⟨⟨hs, List.forall_mem_cons.mpr
            ⟨.inl (.opened hstatus (Bool.not_eq_true _ ▸ hsome)), hwaiting⟩⟩,
          tells_neutrally htells (neutral_answered _ s) (neutral_asked _ s)⟩
  | @opened m status before info hstatus hsome =>
    cases a with
    | error err =>
      refine ⟨⟨hs, hwaiting⟩, tells_neutrally htells (neutral_answered _ s)
        (neutral_ended fun m' a hloads => ?_)⟩
      obtain ⟨-, -, -, info', -, hexchanges⟩ := hloads
      obtain ⟨⟨⟩, hrest⟩ := List.cons.inj hexchanges
      rw [if_neg (Bool.not_eq_true _ ▸ hsome)] at hrest
      cases (List.cons.inj hrest).1
    | ok _ =>
      refine ⟨⟨hs.enroll m info _, hwaiting⟩, tells_ended hs htells hstatus ?_ _⟩
      rw [if_neg (Bool.not_eq_true _ ▸ hsome)]
      rfl

end Landing

/-- Attaching does nothing to the state. -/
theorem permitted_attaching (config : Config) (registry : Registry)
    {R : EngineState → EngineState → Prop} (s : EngineState) :
    (attaching config registry).Permitted (fun _ _ => True) R s := by
  rw [attaching_eq]
  split
  · refine ⟨trivial, fun version s => ?_⟩
    cases version with
    | error err => trivial
    | ok version =>
      show (match version.check config.runtimeHint with
        | .ok _ => _
        | .error _ => _ : Proc EngineState Bool).Permitted _ R s
      split
      · refine ⟨trivial, fun inspection s => ?_⟩
        cases inspection with
        | error err => trivial
        | ok _ => exact ⟨trivial, fun _ _ => trivial⟩
      · trivial
  · trivial

/-- A stopped engine does nothing about an event, and records nothing. -/
theorem tells_ignored (hs : s.InStep) (htells : e.Tells log s) (hdown : s.tornDown = true)
    (event : Event) :
    e.Tells (log ++ [.began (.event event) s, .ended (.event event) s [] s]) s := by
  intro m a
  have hnone := hs.not_recordedIn_of_tornDown hdown m a
  refine iff_of_false hnone fun hloaded => ?_
  rw [← List.singleton_append, ← List.append_assoc] at hloaded
  rcases (loaded_snoc e m a _ _).mp hloaded with hloads | ⟨hloaded, -⟩
  · -- a load that is not dealt with asks nothing
    cases event with
    | moduleLoaded m' status =>
      obtain ⟨-, -, -, info, -, hexchanges⟩ := hloads
      cases hexchanges
    | _ => exact hloads
  · rcases (loaded_snoc e m a _ _).mp hloaded with hloads | ⟨hloaded, -⟩
    · exact hloads
    · exact hnone ((htells m a).mpr hloaded)

/-- The handle is given up, and the runtime is to be told that the engine is gone. -/
theorem tells_leave (hs : s.InStep) {waiting : List Pending}
    (hwaiting : ∀ f ∈ waiting, e.Loading f ∨ e.Calm f) (htells : e.Tells log s) {x : Incident}
    (hloads : ∀ m a, ¬ x.Loads e m a) (hunloads : ∀ m a, x.Unloads m a) {f : Pending}
    (hf : e.Calm f) :
    e.Tidy ⟨s.tearDown.2, false, f :: waiting⟩ ∧
      e.Tells (log ++ [x, .asked .unregister s.tearDown.2]) s.tearDown.2 :=
  ⟨⟨hs.tearDown, List.forall_mem_cons.mpr ⟨.inr hf, hwaiting⟩⟩,
    tells_of_unloads htells hloads (neutral_asked _ _) (recordedIn_tearDown hs hunloads)⟩

/-- A turn keeps the records to what the log says. -/
theorem tells_turn {s s' : Scene} (hturn : e.Turn s new s') (htidy : e.Tidy s)
    (htells : e.Tells log s.state) : e.Tidy s' ∧ e.Tells (log ++ new) s'.state := by
  obtain ⟨hs, hwaiting⟩ := htidy
  cases hturn with
  | attach he =>
    exact tells_calm hs (fun f hf => absurd hf List.not_mem_nil) htells (fun _ _ => ⟨id, id⟩)
      (fun _ _ h => by cases h) _ [] (permitted_attaching _ _ _)
  | move hbegins =>
    cases hbegins with
    | event held event =>
      rw [settle_handle]
      split
      · next hdown => exact ⟨⟨hs, hwaiting⟩, tells_ignored hs htells hdown event⟩
      · exact tells_act hs hwaiting htells event
    | detach =>
      exact tells_leave (x := .began .detach _) hs hwaiting htells (fun _ _ => id)
        (fun _ _ => trivial) ⟨(fun _ _ h => by cases h), fun _ _ => trivial⟩
    | drop =>
      exact tells_leave (x := .began .drop _) hs hwaiting htells (fun _ _ => id)
        (fun _ _ => trivial) ⟨(fun _ _ h => by cases h), fun _ _ => trivial⟩
    | tearDown =>
      exact ⟨⟨hs.tearDown, hwaiting⟩, tells_of_unloads htells (fun _ _ => id)
        (neutral_ended fun _ _ => id) (recordedIn_tearDown hs fun _ _ => trivial)⟩
  | answer f a =>
    have hothers : ∀ g ∈ _, e.Loading g ∨ e.Calm g := fun g hg =>
      hwaiting g (List.mem_cons_of_mem _ hg)
    rcases hwaiting f List.mem_cons_self with hf | hf
    · exact tells_loading hs hothers htells hf a
    · exact tells_calm hs hothers htells (neutral_answered _ _) hf.move _ _ (hf.next a _)

end Tells

/-- At every moment of every run, whatever the runtime answers and whatever else happens while it
does: a module has a record exactly if it has a token cache, the token cache in the record is that
one, and it has a record exactly if it was loaded and neither unloaded since, nor its assembly,
nor the engine stopped. -/
theorem recorded_iff_loaded (e : Engine) {limit : Nat} {log : List Incident} {s : Scene}
    (hplays : e.Plays (.fresh limit) log s) (m : ModuleId) :
    (s.state.find? m).isSome = s.state.emitter.live[m]?.isSome ∧
    (∀ id r, s.state.find? m = some (id, r) →
      r.module = m ∧ s.state.emitter.live[m]? = some r.cache ∧
        (s.state.emitter.cache r.cache).module = m) ∧
    ∀ a, (∃ id r, s.state.find? m = some (id, r) ∧ r.assembly = a) ↔ e.Loaded m a log := by
  have hall : e.Tidy s ∧ e.Tells log s.state := by
    generalize hstart : Scene.fresh limit = start at hplays
    induction hplays with
    | nil =>
      obtain rfl := hstart
      refine ⟨⟨EngineState.inStep_fresh limit, fun f hf => absurd hf List.not_mem_nil⟩, fun m a => ?_⟩
      refine iff_of_false ?_ (not_loaded_nil e m a)
      rintro ⟨id, r, hfind, -⟩
      have hnone : (EngineState.fresh limit).live[m]? = none := Std.ExtTreeMap.getElem?_empty
      cases hnone.symm.trans (EngineState.find?_eq_some.mp hfind).1
    | snoc _ hturn ih => exact tells_turn hturn ih.1 ih.2
  exact ⟨hall.1.state.isSome_find? m, fun id r => hall.1.state.cache_of_find?, hall.2 m⟩

/-! ### A load that is interrupted -/

section Loads

variable {e : Engine} {s : EngineState} (held : Bool) (waiting : List Pending) {m : ModuleId}

/-- A module is loaded, and the engine asks what it is. -/
theorem turn_load (m : ModuleId) (status : StatusCode) (hup : s.tornDown = false)
    (hstatus : status.isOk = true) :
    e.Turn ⟨s, held, waiting⟩
      [.began (.event (.moduleLoaded m status)) s,
        .asked (.moduleInfo m) (s.countEvent .moduleLoad)]
      ⟨s.countEvent .moduleLoad, held,
        ⟨.event (.moduleLoaded m status), s, [], .moduleInfo m, e.afterInfo m⟩ :: waiting⟩ := by
  have hturn : e.Turn ⟨s, held, waiting⟩ _ _ := .move (.event held (.moduleLoaded m status))
  rw [settle_handle, if_neg (Bool.not_eq_true _ ▸ hup), act_moduleLoaded, if_pos hstatus] at hturn
  exact hturn

/-- It is told, and some rule may apply to the module. -/
theorem turn_info {status : StatusCode} {before : EngineState} (info : ModuleInfo)
    (hsome : (e.registry.candidatesFor ⟨info.assemblyName, info.assemblyVersion⟩).isEmpty = false) :
    e.Turn ⟨s, held,
        ⟨.event (.moduleLoaded m status), before, [], .moduleInfo m, e.afterInfo m⟩ :: waiting⟩
      [.answered ⟨.moduleInfo m, .ok info⟩ s, .asked (.openMetadata m) s]
      ⟨s, held, ⟨.event (.moduleLoaded m status), before, [⟨.moduleInfo m, .ok info⟩],
        .openMetadata m, e.afterOpen m info⟩ :: waiting⟩ := by
  have hnext : e.afterInfo m (.ok info) = .ask (.openMetadata m) (e.afterOpen m info) := by
    unfold afterInfo
    dsimp only
    rw [if_neg (Bool.not_eq_true _ ▸ hsome)]
  have hturn : e.Turn ⟨s, held, _ :: waiting⟩ _ _ :=
    .answer ⟨.event (.moduleLoaded m status), before, [], .moduleInfo m, e.afterInfo m⟩ (.ok info)
  dsimp only at hturn
  rw [hnext] at hturn
  exact hturn

end Loads

/-- While it is asked what a module is and to open its metadata, the runtime says that the module
and then its assembly are to go; but they were not recorded yet. -/
theorem recorded_iff_loaded_meanwhile : ∃ log s, constantEngine.Plays (.fresh 3) log s ∧
    ∃ id r, s.state.find? 1 = some (id, r) ∧ r.assembly = 7 := by
  have hsome : (constantEngine.registry.candidatesFor
      ⟨constantFacts.info.assemblyName, constantFacts.info.assemblyVersion⟩).isEmpty = false := by cbv
  have hload : constantEngine.Plays (.fresh 3) _ _ :=
    .turn (turn_load false [] 1 .success rfl rfl)
  have hunload := hload.snoc (.move (.event false (.moduleUnloading 1)))
  have hinfo := hunload.snoc (turn_info false [] constantFacts.info hsome)
  have hassembly := hinfo.snoc (.move (.event false (.assemblyUnloading 7)))
  have hopened := hassembly.snoc (.answer ⟨.event (.moduleLoaded 1 .success), .fresh 3,
    [⟨.moduleInfo 1, .ok constantFacts.info⟩], .openMetadata 1,
    constantEngine.afterOpen 1 constantFacts.info⟩ (.ok ()))
  refine ⟨_, _, hopened, ((recorded_iff_loaded constantEngine hopened 1).2.2 7).mpr ?_⟩
  refine loaded_of_last ⟨rfl, rfl, rfl, constantFacts.info, rfl, ?_⟩
  rw [if_neg (Bool.not_eq_true _ ▸ hsome)]
  rfl

end Engine

end CilProbe
