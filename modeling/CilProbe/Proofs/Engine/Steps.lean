/-
CilProbe/Proofs/Engine/Steps.lean

What an engine can do.  `Engine.Step` lists every change that it makes to its state, and
`Engine.Asks` says what it may ask in which state; a callback consists of such steps and
questions, and nothing else happens to the state but what the runtime delivers while a
question is pending (`permitted_handle`).  So what each step preserves holds at every moment
of every run if it holds in the beginning (`Preserved.histories`).
-/
import CilProbe.Proofs.Engine.Records
import CilProbe.Proofs.Engine.Settled

namespace CilProbe

/-- Questions that have to do with attaching and detaching an engine. -/
def Query.Negotiates : Query → Prop
  | .version | .inspection | .register _ | .unregister => True
  | _ => False

/-! ### Steps in a state -/

namespace Proc

variable {σ α β : Type} {Q Q' : σ → Query → Prop} {R R' : σ → σ → Prop}

/-- Every question that the computation asks is one in `Q` for the state it is asked in, and every
change that it makes to the state is one in `R`; while a question is pending anything may happen
to the state. -/
def Permitted (Q : σ → Query → Prop) (R : σ → σ → Prop) : Proc σ α → σ → Prop
  | done _, _ => True
  | read next, s => (next s).Permitted Q R s
  | write s' next, s => R s s' ∧ next.Permitted Q R s'
  | ask q next, s => Q s q ∧ ∀ a s, (next a).Permitted Q R s

namespace Permitted

theorem bind {p : Proc σ α} {f : α → Proc σ β} {s : σ} (hp : p.Permitted Q R s)
    (hf : ∀ a s, (f a).Permitted Q R s) : (p.bind f).Permitted Q R s := by
  induction p generalizing s with
  | done a => exact hf a s
  | read next ih => exact ih s hp
  | write s' next ih => exact ⟨hp.1, ih hp.2⟩
  | ask q next ih => exact ⟨hp.1, fun a s' => ih a (hp.2 a s')⟩

theorem mono {p : Proc σ α} {s : σ} (hp : p.Permitted Q R s) (hQ : ∀ s q, Q s q → Q' s q)
    (hR : ∀ s s', R s s' → R' s s') : p.Permitted Q' R' s := by
  induction p generalizing s with
  | done a => trivial
  | read next ih => exact ih s hp
  | write s' next ih => exact ⟨hR _ _ hp.1, ih hp.2⟩
  | ask q next ih => exact ⟨hQ s q hp.1, fun a s' => ih a (hp.2 a s')⟩

theorem confined {p : Proc σ α} {s : σ} (hp : p.Permitted Q R s) :
    p.Confined (fun _ => True) R s := by
  induction p generalizing s with
  | done a => trivial
  | read next ih => exact ih s hp
  | write s' next ih => exact ⟨hp.1, ih hp.2⟩
  | ask q next ih => exact ⟨trivial, fun a s' => ih a (hp.2 a s')⟩

end Permitted

/-- What a computation asks in any state. -/
theorem Confined.permitted {P : Query → Prop} {p : Proc σ α} {s : σ} (hp : p.Confined P R s)
    (hP : ∀ q, P q → ∀ s, Q s q) : p.Permitted Q R s := by
  induction p generalizing s with
  | done a => trivial
  | read next ih => exact ih s hp
  | write s' next ih => exact ⟨hp.1, ih hp.2⟩
  | ask q next ih => exact ⟨hP q hp.1 s, fun a s' => ih a (hp.2 a s')⟩

end Proc

theorem Attempt.permitted_bind {σ α β : Type} {Q : σ → Query → Prop} {R : σ → σ → Prop}
    {x : Attempt σ α} {f : α → Attempt σ β} {s : σ} (hx : x.run.Permitted Q R s)
    (hf : ∀ a s, (f a).run.Permitted Q R s) : (x >>= f).run.Permitted Q R s := by
  show (Proc.bind x.run _).Permitted Q R s
  refine Proc.Permitted.bind hx fun r s => ?_
  cases r with
  | ok a => exact hf a s
  | error e => trivial

open Proc

namespace Engine

variable (e : Engine)

/-! ### Callbacks -/

/-- The changes that an engine makes to its state. -/
inductive Step : EngineState → EngineState → Prop
  /-- An event is counted. -/
  | counted (s : EngineState) (k : EventKind) : Step s (s.countEvent k)
  /-- A compilation came to an end. -/
  | finished (s : EngineState) (r : Except Error (Option MethodOutcome)) : Step s (countResult r s)
  /-- A row was put in a token cache. -/
  | cached (s : EngineState) (id : CacheId) (row : Emission) :
    Step s { s with emitter := s.emitter.modifyCache id (·.record row) }
  /-- A method was claimed, or an attempt was made to. -/
  | claimed (s : EngineState) (id : RecordId) (method : Token) (integration : String) :
    Step s (s.claim id method integration).2
  /-- A module was recorded. -/
  | enrolled (s : EngineState) (m : ModuleId) (info : ModuleInfo) : Step s (e.enrolled s m info)
  /-- A module was forgotten. -/
  | removed (s : EngineState) (m : ModuleId) : Step s (s.remove m)
  /-- All modules of an assembly were. -/
  | assemblyRemoved (s : EngineState) (a : AssemblyId) : Step s (s.removeAssembly a)
  /-- The engine was stopped. -/
  | tornDown (s : EngineState) : Step s s.tearDown.2

/-- The changes that an event leads to; only the end of the runtime stops the engine. -/
def Goes (event : Event) (s s' : EngineState) : Prop :=
  e.Step s s' ∧ (event ≠ .shuttingDown → s'.tornDown = s.tornDown)

/-- The questions that events lead to: none has to do with attaching, and no body is installed once
the engine is stopped. -/
def Asks (s : EngineState) (q : Query) : Prop :=
  ¬ q.Negotiates ∧ (q.NotInstall ∨ s.tornDown = false)

section Permitted

variable {e} {event : Event}

theorem permitted_of_confined {α : Type} {R : EngineState → EngineState → Prop}
    {p : Proc EngineState α} {s : EngineState}
    (hp : p.Confined (fun q => ¬ q.Negotiates ∧ q.NotInstall) R s) : p.Permitted Asks R s :=
  hp.permitted fun _ hq _ => ⟨hq.1, .inl hq.2⟩

variable {R : EngineState → EngineState → Prop}

/-- A body is installed in the very state that was looked at. -/
theorem permitted_install (s : Subject) (body : List UInt8) (state : EngineState) :
    (install s body).run.Permitted Asks R state := by
  show ((known (state.emitter.cache s.record.cache).lock >>= fun _ =>
    if state.tornDown then pure none
    else demand (.install s.record.module s.props.token body) id >>= fun _ =>
      pure (some .instrumented) : EngineAttempt (Option MethodOutcome)).run).Permitted Asks R state
  cases (state.emitter.cache s.record.cache).lock with
  | error err => trivial
  | ok _ =>
    show ((if state.tornDown then pure none else _ :
      EngineAttempt (Option MethodOutcome)).run).Permitted Asks R state
    split
    · trivial
    · next hdown =>
      exact ⟨⟨id, .inr (Bool.not_eq_true _ ▸ hdown)⟩, fun a s' => by cases a <;> trivial⟩

/-- What becomes of a method that was claimed puts rows in its cache and does nothing else to the
state. -/
theorem permitted_instrument (s : Subject) (rule : Rule)
    (hcached : ∀ state state', EngineState.Records state state' → R state state')
    (state : EngineState) : (e.instrument s rule).run.Permitted Asks R state := by
  refine Attempt.permitted_bind (permitted_of_confined (confined_readMethod s ⟨id, trivial⟩
    ⟨id, trivial⟩ state)) ?_
  rintro ⟨body, locals⟩ state
  refine Attempt.permitted_bind (Permitted.bind (permitted_of_confined (confined_probe_tokens
    e.passLimit (request s rule body locals) rule.helper ⟨id, trivial⟩
    (fun _ => ⟨id, trivial⟩) hcached state)) fun _ _ => trivial) fun attempt state => ?_
  rcases attempt with reason | ⟨method | -⟩
  · show ((if reason.isDecline then pure (some MethodOutcome.declined) else throw reason :
      EngineAttempt (Option MethodOutcome)).run).Permitted Asks R state
    split
    · trivial
    · trivial
  · exact Attempt.permitted_bind (permitted_of_confined (confined_check e s method.body
      ⟨id, trivial⟩ state)) fun _ state => permitted_install s method.body state
  · trivial

theorem permitted_compile (function : FunctionId)
    (hcached : ∀ state state', EngineState.Records state state' → R state state')
    (hclaimed : ∀ state id method integration,
      R state (EngineState.claim state id method integration).2)
    (state : EngineState) : (e.compile function).run.Permitted Asks R state := by
  rw [compile_eq]
  refine Attempt.permitted_bind (permitted_of_confined (e.confined_choose function ⟨id, trivial⟩
    (fun _ => ⟨id, trivial⟩) state)) fun chosen state => ?_
  rcases chosen with - | - | ⟨s, rule⟩
  · trivial
  · trivial
  · refine Attempt.permitted_bind ⟨hclaimed state _ _ _, trivial⟩ fun won state => ?_
    split
    · exact permitted_instrument s rule hcached state
    · trivial

/-- None of the steps but the last kind stops the engine. -/
theorem tornDown_enrolled (s : EngineState) (m : ModuleId) (info : ModuleInfo) :
    (e.enrolled s m info).tornDown = s.tornDown := by
  unfold enrolled
  rw [EngineState.enroll_eq]
  split
  · rfl
  · rfl

theorem tornDown_countResult (r : Except Error (Option MethodOutcome)) (s : EngineState) :
    (countResult r s).tornDown = s.tornDown := by
  rcases r with err | - | outcome
  · rfl
  · rfl
  · rfl

theorem removeAssembly_preserves {P : EngineState → Prop} (hP : ∀ s m, P s → P (s.remove m))
    {s : EngineState} (hs : P s) (a : AssemblyId) : P (s.removeAssembly a) :=
  List.foldlRecOn (motive := P) (s.modulesOf a) EngineState.remove hs fun s' h m _ => hP s' m h

/-- Everything that a callback asks and does. -/
theorem permitted_handle (e : Engine) (event : Event) (s : EngineState) :
    (e.handle event).Permitted Asks (e.Goes event) s := by
  rw [handle_eq]
  show (if s.tornDown then _ else _ : Proc EngineState StatusCode).Permitted Asks _ s
  split
  · trivial
  refine ⟨⟨.counted s _, fun _ => rfl⟩, Permitted.bind ?_ fun _ _ => trivial⟩
  by_cases hevent : event.kind = .compilation
  · cases event with
    | compiling function mayBlock =>
      refine Permitted.bind (p := (e.compile function).run) ?_
        fun r s => ⟨⟨.finished s r, fun _ => tornDown_countResult r s⟩, trivial⟩
      refine permitted_compile function ?_ (fun s id method integration =>
        ⟨.claimed s id method integration, fun _ => rfl⟩) _
      rintro s _ ⟨id, row, rfl⟩
      exact ⟨.cached s id row, fun _ => rfl⟩
    | _ => cases hevent
  · refine permitted_of_confined (confined_act hevent (fun _ => ⟨id, trivial⟩)
      (fun _ => ⟨id, trivial⟩) (fun m s info => ⟨.enrolled s m info, fun _ =>
        tornDown_enrolled s m info⟩) (fun m _ s => ⟨.removed s m, fun _ => rfl⟩)
      (fun a _ s => ⟨.assemblyRemoved s a, fun _ => ?_⟩)
      (fun hdown s => ⟨.tornDown s, fun hnot => absurd hdown hnot⟩) _)
    exact removeAssembly_preserves (P := fun s' => s'.tornDown = s.tornDown) (fun _ _ => id) rfl a

end Permitted

/-! ### Invariants -/

/-- What each step of an engine preserves. -/
def Preserved (P : EngineState → Prop) : Prop := ∀ s s', e.Step s s' → P s → P s'

namespace Preserved

variable {e} {P : EngineState → Prop} {τ : Type}

section Callbacks

variable {h : Host τ} {deliver : Event → World EngineState τ → World EngineState τ}

/-- What events before an answer preserve holds behind the answer. -/
theorem exchange (hdeliver : ∀ event w, P w.engine → P (deliver event w).engine) (q : Query)
    (w : World EngineState τ) (hw : P w.engine) : P (Proc.exchange h deliver q w).2.engine := by
  have hevents : ∀ (events : List Event) (w : World EngineState τ), P w.engine →
      P (events.foldl (fun w e => deliver e w) w).engine := by
    intro events
    induction events with
    | nil => exact fun _ => id
    | cons event events ih => exact fun w hw => ih _ (hdeliver event w hw)
  exact hevents (h.interrupts q w.host).1 (interrupted h q w) hw

/-- It holds in the end if it holds in the beginning, and then around every callback. -/
def Throughout (P : EngineState → Prop) (w : World EngineState τ) (cs : List (Callback τ))
    (w' : World EngineState τ) : Prop :=
  P w.engine → P w'.engine ∧ ∀ c ∈ cs, P c.before.engine ∧ P c.after.engine

theorem Throughout.nil (w : World EngineState τ) : Throughout P w [] w := fun hw =>
  ⟨hw, fun _ hc => absurd hc List.not_mem_nil⟩

theorem Throughout.append {w w₁ w' : World EngineState τ} {cs cs' : List (Callback τ)}
    (h : Throughout P w cs w₁) (h' : Throughout P w₁ cs' w') : Throughout P w (cs ++ cs') w' := by
  intro hw
  obtain ⟨hw₁, hcs⟩ := h hw
  obtain ⟨hw', hcs'⟩ := h' hw₁
  exact ⟨hw', fun c hc => (List.mem_append.mp hc).elim (hcs c) (hcs' c)⟩

variable (hP : e.Preserved P)
include hP

theorem callback {log : Event → World EngineState τ → List (Callback τ)}
    (hlog : ∀ event w, Throughout P w (log event w) (deliver event w)) (event : Event)
    (w : World EngineState τ) :
    Throughout P w (((e.handle event).course h deliver w).deliveries.flatMap
        (fun d => log d.event d.world) ++ [e.callback h deliver event w])
      ((e.handle event).run h deliver w).2 := by
  have hT := composes_log (T := Throughout P) Throughout.nil Throughout.append log
  have hask : ∀ q w, True → Throughout P w ((asking h deliver q w).deliveries.flatMap fun d =>
      log d.event d.world) (Proc.exchange h deliver q w).2 := by
    refine fun q w _ => hT.exchange (.nil _) (fun event _ w => ?_) (.nil _)
    rw [List.flatMap_singleton]
    exact hlog event w
  have hruns : (e.handle event).Runs h deliver w _ ((e.handle event).course h deliver w) _ :=
    ⟨rfl, rfl⟩
  have hinside := (e.permitted_handle event w.engine).confined.runs hT
    (fun w s hstep hw => ⟨hP _ _ hstep.1 hw, fun _ hc => absurd hc List.not_mem_nil⟩) hask hruns
  intro hw
  obtain ⟨hafter, hcs⟩ := hinside hw
  refine ⟨hafter, fun c hc => (List.mem_append.mp hc).elim (hcs c) fun hc => ?_⟩
  obtain rfl := List.mem_singleton.mp hc
  exact ⟨hw, hafter⟩

end Callbacks

variable (hP : e.Preserved P) (h : Host τ)
include hP

/-- A delivery preserves it, and it holds around every callback of its. -/
theorem history (depth : Nat) (event : Event) (w : World EngineState τ) :
    Throughout P w (e.history h depth event w) (e.deliver h depth event w).2 :=
  history_induction Throughout.nil (fun _ _ hlog => callback hP hlog) depth event w

/-- So do all deliveries of a run. -/
theorem histories (depth : Nat) (events : List Event) (w : World EngineState τ) :
    Throughout P w (e.histories h depth events w) (e.deliverAll h depth events w) :=
  histories_induction Throughout.nil Throughout.append (hP.history h depth) events w

/-- And the events that come in between. -/
theorem inner (depth : Nat) (event : Event) (w : World EngineState τ) (hw : P w.engine) :
    P (e.inner h depth event w).engine := by
  cases depth with
  | zero => exact hw
  | succ depth => exact (hP.history h depth event w hw).1

end Preserved

end Engine

end CilProbe
