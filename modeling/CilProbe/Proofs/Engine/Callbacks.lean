/-
CilProbe/Proofs/Engine/Callbacks.lean

The callbacks of a run.  An engine deals with an event in a `Callback`, and a runtime may
deliver further events while it does; `Engine.history` lists the callbacks of a delivery,
the inner ones before the one they are part of.  What a callback does itself is told apart
from what those do that are delivered meanwhile: its own questions, the claim it makes and
the outcome it counts.

A property that composes along lists of callbacks holds of every delivery and of every
sequence of deliveries if it holds of one callback, given that it holds of those inside
(`history_induction`, `histories_induction`).
-/
import CilProbe.Proofs.Engine.Claims
import CilProbe.Scripted.Host

namespace CilProbe

/-! ### Ledgers -/

/-- The installation that was accepted in an exchange, if it was about one. -/
def Exchange.accepted? : Exchange → Option Installation
  | ⟨.install m method body, .ok ()⟩ => some ⟨m, method, body⟩
  | _ => none

/-- An account of the installations that a runtime has accepted. -/
structure Host.Ledger {τ : Type} (h : Host τ) where
  /-- The installations accepted so far, in order. -/
  installs : τ → List Installation
  /-- Delivering events is none. -/
  interrupts (q : Query) (t : τ) : installs (h.interrupts q t).2 = installs t
  /-- An answer is one if it accepts one. -/
  answer (q : Query) (t : τ) :
    installs (h.answer q t).2 = installs t ++ (Exchange.mk q (h.answer q t).1).accepted?.toList

/-- The installations accepted for one method. -/
def Host.Ledger.installsFor {τ : Type} {h : Host τ} (ledger : h.Ledger) (m : ModuleId)
    (method : Token) (t : τ) : List Installation :=
  (ledger.installs t).filter fun i => i.module == m && i.method == method

/-- A runtime that keeps an account besides its own state, and does not look at it. -/
def Host.logged {τ : Type} (h : Host τ) : Host (τ × List Installation) where
  interrupts q t := ((h.interrupts q t.1).1, ((h.interrupts q t.1).2, t.2))
  answer q t :=
    ((h.answer q t.1).1,
      ((h.answer q t.1).2, t.2 ++ (Exchange.mk q (h.answer q t.1).1).accepted?.toList))

/-- So there is an account of every runtime. -/
def Host.Ledger.logged {τ : Type} (h : Host τ) : h.logged.Ledger where
  installs := Prod.snd
  interrupts _ _ := rfl
  answer _ _ := rfl

/-! ### Callbacks -/

/-- Whether a claim was to a method, and succeeded. -/
def Engine.claimed (claim? : Option (Engine.Subject × Bool)) (id : RecordId) (method : Token) :
    Bool :=
  claim?.any fun (s, succeeded) => succeeded && (id == s.id && method == s.props.token)

/-- One event and how it was dealt with. -/
structure Callback (τ : Type) where
  /-- The event. -/
  event : Event
  /-- The world in which it was delivered. -/
  before : World EngineState τ
  /-- The world behind it. -/
  after : World EngineState τ
  /-- What it was answered with. -/
  status : StatusCode
  /-- The questions asked for it. -/
  exchanges : List Exchange
  /-- The method that was laid claim to, and whether the claim succeeded. -/
  claim? : Option (Engine.Subject × Bool)
  /-- The outcome that was counted for it. -/
  outcome : Option MethodOutcome

namespace Callback

variable {τ : Type}

/-- Whether the callback was counted as an event of the kind. -/
def counts (c : Callback τ) (k : EventKind) : Bool := !c.before.engine.tornDown && k == c.event.kind

/-- Whether the callback went past the claim of a method. -/
def claims (c : Callback τ) (id : RecordId) (method : Token) : Bool :=
  Engine.claimed c.claim? id method

/-- The installations that the runtime accepted from the callback. -/
def installs (c : Callback τ) : List Installation := c.exchanges.filterMap Exchange.accepted?

end Callback

namespace Engine

/-- What is counted for the result of a compilation. -/
def outcomeOf : Except Error (Option MethodOutcome) → Option MethodOutcome
  | .ok outcome => outcome
  | .error _ => some .failed

section Callbacks

variable {τ : Type} (e : Engine) (h : Host τ)
  (deliver : Event → World EngineState τ → World EngineState τ)

/-- The world behind the counting of an event. -/
def counted (event : Event) (w : World EngineState τ) : World EngineState τ :=
  { w with engine := w.engine.countEvent event.kind }

/-- The claim made for an event that was counted. -/
def claimMade (w : World EngineState τ) : Event → Option (Subject × Bool)
  | .compiling function _ =>
    claimOf ((e.choose function).run.run h deliver w).2.engine
      ((e.choose function).run.run h deliver w).1
  | _ => none

/-- The outcome of an event that was counted. -/
def outcome (w : World EngineState τ) : Event → Option MethodOutcome
  | .compiling function _ => outcomeOf ((e.compile function).run.run h deliver w).1
  | _ => none

/-- A callback; `deliver` deals with the events that come in between. -/
def callback (event : Event) (w : World EngineState τ) : Callback τ where
  event := event
  before := w
  after := ((e.handle event).run h deliver w).2
  status := ((e.handle event).run h deliver w).1
  exchanges := ((e.handle event).course h deliver w).exchanges
  claim? := if w.engine.tornDown then none else e.claimMade h deliver (counted event w) event
  outcome := if w.engine.tornDown then none else e.outcome h deliver (counted event w) event

/-- What becomes of events inside a callback: they are dealt with if they may nest deeper. -/
def inner : Nat → Event → World EngineState τ → World EngineState τ
  | 0 => fun _ w => w
  | depth + 1 => fun event w => (e.deliver h depth event w).2

theorem deliver_eq (depth : Nat) (event : Event) (w : World EngineState τ) :
    e.deliver h depth event w = (e.handle event).run h (e.inner h depth) w := by
  cases depth with
  | zero => rfl
  | succ depth => rfl

/-- The callbacks of a delivery, in the order in which they end. -/
def history : Nat → Event → World EngineState τ → List (Callback τ)
  | 0, event, w => [e.callback h (e.inner h 0) event w]
  | depth + 1, event, w =>
    ((e.handle event).course h (e.inner h (depth + 1)) w).deliveries.flatMap
        (fun d => history depth d.event d.world) ++
      [e.callback h (e.inner h (depth + 1)) event w]

/-- Events delivered one after the other. -/
def deliverAll (depth : Nat) (events : List Event) (w : World EngineState τ) :
    World EngineState τ :=
  events.foldl (fun w event => (e.deliver h depth event w).2) w

/-- The callbacks of all of them. -/
def histories (depth : Nat) (events : List Event) (w : World EngineState τ) : List (Callback τ) :=
  (Proc.occasions (fun event w => (e.deliver h depth event w).2) events w).flatMap
    fun (event, w) => e.history h depth event w

end Callbacks

/-! ### Induction -/

section Induction

variable {τ : Type} {e : Engine} {h : Host τ}
  {T : World EngineState τ → List (Callback τ) → World EngineState τ → Prop}

/-- What composes along lists of callbacks composes along courses, if events that are
delivered on the way leave the callbacks in `log`. -/
theorem composes_log (hrefl : ∀ w, T w [] w)
    (htrans : ∀ {w w₁ w' cs cs'}, T w cs w₁ → T w₁ cs' w' → T w (cs ++ cs') w')
    (log : Event → World EngineState τ → List (Callback τ)) :
    Proc.Composes fun w (c : Course EngineState τ) w' =>
      T w (c.deliveries.flatMap fun d => log d.event d.world) w' where
  refl := hrefl
  trans hc hc' := by
    rw [Course.deliveries_append, List.flatMap_append]
    exact htrans hc hc'

/-- A property of deliveries holds of all if it holds of each callback, given that it holds
of the callbacks inside. -/
theorem history_induction (hrefl : ∀ w, T w [] w)
    (hcallback : ∀ (deliver : Event → World EngineState τ → World EngineState τ)
      (log : Event → World EngineState τ → List (Callback τ)),
      (∀ event w, T w (log event w) (deliver event w)) → ∀ event w,
      T w (((e.handle event).course h deliver w).deliveries.flatMap
          (fun d => log d.event d.world) ++ [e.callback h deliver event w])
        ((e.handle event).run h deliver w).2) (depth : Nat) :
    ∀ event w, T w (e.history h depth event w) (e.deliver h depth event w).2 := by
  induction depth with
  | zero =>
    intro event w
    have hone := hcallback (e.inner h 0) (fun _ _ => []) (fun _ w => hrefl w) event w
    rw [List.flatMap_eq_nil_iff.mpr fun _ _ => rfl, List.nil_append] at hone
    rw [deliver_eq]
    exact hone
  | succ depth ih =>
    intro event w
    rw [deliver_eq]
    exact hcallback (e.inner h (depth + 1)) (fun event w => e.history h depth event w) ih event w

theorem histories_induction (hrefl : ∀ w, T w [] w)
    (htrans : ∀ {w w₁ w' cs cs'}, T w cs w₁ → T w₁ cs' w' → T w (cs ++ cs') w') {depth : Nat}
    (hdelivery : ∀ event w, T w (e.history h depth event w) (e.deliver h depth event w).2)
    (events : List Event) :
    ∀ w, T w (e.histories h depth events w) (e.deliverAll h depth events w) := by
  induction events with
  | nil => exact hrefl
  | cons event events ih => exact fun w => htrans (hdelivery event w) (ih _)

/-- Every callback in a history is one. -/
theorem exists_of_mem_history {depth : Nat} {c : Callback τ} :
    ∀ {event w}, c ∈ e.history h depth event w → ∃ deliver event w, c = e.callback h deliver event w := by
  induction depth with
  | zero =>
    intro event w hc
    exact ⟨_, event, w, List.mem_singleton.mp hc⟩
  | succ depth ih =>
    intro event w hc
    rcases List.mem_append.mp hc with hc | hc
    · obtain ⟨d, -, hc⟩ := List.mem_flatMap.mp hc
      exact ih hc
    · exact ⟨_, event, w, List.mem_singleton.mp hc⟩

theorem exists_of_mem_histories {depth : Nat} {events : List Event} {c : Callback τ}
    {w : World EngineState τ} (hc : c ∈ e.histories h depth events w) :
    ∃ deliver event w, c = e.callback h deliver event w := by
  obtain ⟨⟨event, w'⟩, -, hc⟩ := List.mem_flatMap.mp hc
  exact exists_of_mem_history hc

/-- The events of a run are those that it is about and those that the runtime delivers. -/
theorem event_of_mem_history {P : Event → Prop}
    (hinterrupts : ∀ q t, ∀ event ∈ (h.interrupts q t).1, P event) (depth : Nat) :
    ∀ event w, P event → ∀ c ∈ e.history h depth event w, P c.event := by
  induction depth with
  | zero =>
    intro event w hevent c hc
    obtain rfl := List.mem_singleton.mp hc
    exact hevent
  | succ depth ih =>
    intro event w hevent c hc
    rcases List.mem_append.mp hc with hc | hc
    · obtain ⟨d, hd, hc⟩ := List.mem_flatMap.mp hc
      obtain ⟨t, ht⟩ := Proc.interrupts_of_mem hd
      exact ih d.event d.world (hinterrupts d.pending t d.event ht) c hc
    · obtain rfl := List.mem_singleton.mp hc
      exact hevent

theorem event_of_mem_histories {P : Event → Prop}
    (hinterrupts : ∀ q t, ∀ event ∈ (h.interrupts q t).1, P event) {depth : Nat}
    {events : List Event} (hevents : ∀ event ∈ events, P event) {w : World EngineState τ} :
    ∀ c ∈ e.histories h depth events w, P c.event := by
  intro c hc
  obtain ⟨o, ho, hc⟩ := List.mem_flatMap.mp hc
  exact event_of_mem_history hinterrupts depth o.1 o.2
    (hevents o.1 (Proc.mem_of_mem_occasions ho)) c hc

end Induction

/-! ### One callback -/

section Handling

variable {τ : Type} {e : Engine} {h : Host τ}
  {deliver : Event → World EngineState τ → World EngineState τ} {event : Event}
  {w w' : World EngineState τ}

theorem handle_eq (e : Engine) (event : Event) :
    e.handle event = .read fun s =>
      if s.tornDown then .done .success
      else .read fun s => .write (s.countEvent event.kind)
        ((e.act event).bind fun _ => .done .success) := by
  show Proc.read (fun s => _) = .read fun s => _
  apply congrArg
  funext s
  show (if s.tornDown = true then _ else _ : Proc EngineState StatusCode) = _
  split
  · rfl
  · rfl

/-- An engine that was stopped does nothing. -/
theorem handle_of_tornDown (hdown : w.engine.tornDown = true) :
    (e.handle event).Runs h deliver w .success .empty w := by
  rw [handle_eq]
  show (if w.engine.tornDown then _ else _ : Proc EngineState StatusCode).Runs h deliver w _ _ w
  rw [if_pos hdown]
  exact ⟨rfl, rfl⟩

/-- Any other engine counts the event and deals with it. -/
theorem handle_of_running (e : Engine) (h : Host τ)
    (deliver : Event → World EngineState τ → World EngineState τ) (event : Event)
    (hup : w.engine.tornDown = false) :
    ∃ c w', (e.act event).Runs h deliver (counted event w) () c w' ∧
      (e.handle event).Runs h deliver w .success c w' := by
  refine ⟨_, _, ⟨rfl, rfl⟩, ?_⟩
  rw [handle_eq]
  show (if w.engine.tornDown then _ else _ : Proc EngineState StatusCode).Runs h deliver w _ _ _
  rw [if_neg (Bool.not_eq_true _ ▸ hup)]
  exact Proc.runs_bind.mpr ⟨_, _, _, .empty, ⟨rfl, rfl⟩, ⟨rfl, rfl⟩, (Course.append_empty _).symm⟩

/-- What an event other than a compilation can make an engine ask and do. -/
theorem confined_act {Q : Query → Prop} {R : EngineState → EngineState → Prop}
    (hevent : event.kind ≠ .compilation) (hinfo : ∀ m, Q (.moduleInfo m))
    (hopen : ∀ m, Q (.openMetadata m)) (henroll : ∀ m s info, R s (e.enrolled s m info))
    (hremove : ∀ m, event = .moduleUnloading m → ∀ s : EngineState, R s (s.remove m))
    (hassembly : ∀ a, event = .assemblyUnloading a → ∀ s : EngineState, R s (s.removeAssembly a))
    (hdown : event = .shuttingDown → ∀ s : EngineState, R s s.tearDown.2) (s : EngineState) :
    (e.act event).Confined Q R s := by
  cases event with
  | moduleLoaded m status =>
    show (if status.isOk then _ else _ : Proc EngineState Unit).Confined Q R s
    split
    · exact Proc.Confined.bind (e.confined_loadModule m (hinfo m) (hopen m) (henroll m) s)
        fun _ _ => trivial
    · trivial
  | moduleUnloading m => exact ⟨hremove m rfl s, trivial⟩
  | compiling function mayBlock => exact absurd rfl hevent
  | assemblyUnloading a => exact ⟨hassembly a rfl s, trivial⟩
  | shuttingDown => exact ⟨hdown rfl s, trivial⟩

/-- A compilation, and the counting of its result. -/
theorem runs_of_act {function : FunctionId} {mayBlock : Bool} {c : Course EngineState τ}
    (hruns : (e.act (.compiling function mayBlock)).Runs h deliver w () c w') :
    ∃ r w₁, (e.compile function).run.Runs h deliver w r c w₁ ∧
      w' = { w₁ with engine := countResult r w₁.engine } := by
  obtain ⟨r, c₁, w₁, c₂, hcompile, hcount, rfl⟩ := Proc.runs_bind.mp hruns
  obtain ⟨hrun, rfl⟩ := hcount
  refine ⟨r, w₁, ?_, (congrArg Prod.snd hrun).symm⟩
  rw [show Proc.course h deliver _ w₁ = .empty from rfl, Course.append_empty]
  exact hcompile

/-- The callback for a function that is about to be compiled goes one of the ways of a
compilation. -/
theorem compiling_of_callback (e : Engine) (h : Host τ)
    (deliver : Event → World EngineState τ → World EngineState τ) (function : FunctionId)
    (mayBlock : Bool) (hup : w.engine.tornDown = false) :
    ∃ r c w₁, Compiling h deliver e function (counted (.compiling function mayBlock) w)
        (e.callback h deliver (.compiling function mayBlock) w).claim? r c w₁ ∧
      (e.handle (.compiling function mayBlock)).Runs h deliver w .success c
        { w₁ with engine := countResult r w₁.engine } ∧
      (e.callback h deliver (.compiling function mayBlock) w).outcome = outcomeOf r := by
  obtain ⟨c, w', hact, hhandle⟩ := handle_of_running e h deliver (.compiling function mayBlock) hup
  obtain ⟨r, w₁, hcompile, rfl⟩ := runs_of_act hact
  refine ⟨r, c, w₁, ?_, hhandle, ?_⟩
  · show Compiling _ _ _ _ _ (if w.engine.tornDown = true then none else claimOf _ _) _ _ _
    rw [if_neg (Bool.not_eq_true _ ▸ hup)]
    exact compiling_of_runs hcompile
  · show (if w.engine.tornDown = true then none else outcomeOf (_ : _ × _).1) = _
    rw [if_neg (Bool.not_eq_true _ ▸ hup)]
    exact congrArg (fun x => outcomeOf x.1) hcompile.1

/-- Any other callback makes no claim and has no outcome. -/
theorem callback_of_other (e : Engine) (h : Host τ)
    (deliver : Event → World EngineState τ → World EngineState τ) (w : World EngineState τ)
    (hevent : event.kind ≠ .compilation) :
    (e.callback h deliver event w).claim? = none ∧ (e.callback h deliver event w).outcome = none := by
  cases event with
  | compiling => exact absurd rfl hevent
  | _ => exact ⟨ite_self none, ite_self none⟩

end Handling

end Engine

end CilProbe
