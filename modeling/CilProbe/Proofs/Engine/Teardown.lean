/-
CilProbe/Proofs/Engine/Teardown.lean

An engine that is stopped stays stopped.  It may be stopped by the end of the runtime, by
detaching it or by letting its handle go, at any moment at which a question is pending, and
then also in the middle of a load or a compilation.  Each turn of a run keeps what is known of
the moves that wait (`Orderly`), and the moves that wait are why a compilation which was under
way installs nothing, why a load which was under way leaves no record, and why the runtime is
told once that the engine is gone (`teardown_final`).
-/
import CilProbe.Proofs.Engine.Loaded

namespace CilProbe

/-! ### Results -/

namespace Proc

variable {σ α β : Type} {P : α → Prop}

/-- Every result that the computation can have is one in `P`. -/
def Yields (P : α → Prop) : Proc σ α → Prop
  | .done a => P a
  | .read next => ∀ s, (next s).Yields P
  | .write _ next => next.Yields P
  | .ask _ next => ∀ a, (next a).Yields P

theorem Yields.bind {f : β → Proc σ α} (hf : ∀ b, (f b).Yields P) (p : Proc σ β) :
    (p.bind f).Yields P := by
  induction p with
  | done b => exact hf b
  | read next ih => exact ih
  | write s next ih => exact ih
  | ask q next ih => exact ih

theorem Yields.settle {p : Proc σ α} (hp : p.Yields P) (s : σ) :
    match (p.settle s).1 with
    | .done a => P a
    | .ask _ next => ∀ a, (next a).Yields P := by
  induction p generalizing s with
  | done a => exact hp
  | read next ih => exact ih s (hp s) s
  | write s' next ih => exact ih hp s'
  | ask q next ih => exact hp

end Proc

/-! ### What to look for in a run -/

namespace Incident

/-- The engine calls for a body to be installed. -/
def Installs : Incident → Prop
  | .asked (.install _ _ _) _ => True
  | _ => False

/-- The runtime takes the engine as an observer. -/
def registers : Incident → Bool
  | .answered ⟨.register _, .ok ()⟩ _ => true
  | _ => false

/-- The runtime is told that the engine is gone. -/
def withdraws : Incident → Bool
  | .asked .unregister _ => true
  | _ => false

/-- An event that was delivered to a stopped engine changed nothing, and led to no question. -/
def Idle : Incident → Prop
  | .ended (.event _) before exchanges s => before.tornDown = true → s = before ∧ exchanges = []
  | _ => True

/-- The state is torn down, and this is the answer to whether that had not happened before.  A
stopped engine does not deal with the end of the runtime. -/
def tearDown? : Incident → Option Bool
  | .began (.event .shuttingDown) s => if s.tornDown then none else some s.tearDown.1
  | .began .detach s | .began .drop s | .began .tearDown s => some s.tearDown.1
  | _ => none

end Incident

/-- Whether a move is that of attaching. -/
def Pending.attaches (f : Pending) : Bool :=
  match f.move with
  | .attach _ _ => true
  | _ => false

namespace Engine

variable {e : Engine}

/-! ### Moves that wait -/

/-- The engine changes something, and does not stop. -/
def Works (e : Engine) (s s' : EngineState) : Prop := e.Step s s' ∧ s'.tornDown = s.tornDown

/-- What is known of a move that waits for an answer. -/
inductive Orderly (e : Engine) : Pending → Prop
  /-- An event is waited for only if the engine was running when it was delivered. -/
  | event {event : Event} {before : EngineState} {exchanges : List Exchange} {q : Query}
      {next : q.Answer → Proc EngineState Bool} : before.tornDown = false → ¬ q.Negotiates →
    (∀ a s, (next a).Permitted Asks e.Works s) → (∀ a, (next a).Yields (· = false)) →
    Orderly e ⟨.event event, before, exchanges, q, next⟩
  /-- Detaching waits for the runtime to let go. -/
  | detach {before : EngineState} {exchanges : List Exchange} :
    Orderly e ⟨.detach, before, exchanges, .unregister, fun _ => .done false⟩
  /-- So does letting the handle go. -/
  | drop {before : EngineState} {exchanges : List Exchange} :
    Orderly e ⟨.drop, before, exchanges, .unregister, fun _ => .done false⟩
  /-- Attaching waits for the runtime's version. -/
  | version {config : Config} {registry : Registry} {before : EngineState}
      {exchanges : List Exchange} :
    Orderly e ⟨.attach config registry, before, exchanges, .version, afterVersion config⟩
  /-- Then it waits to hear whether questions can be asked. -/
  | inspection {config : Config} {registry : Registry} {before : EngineState}
      {exchanges : List Exchange} :
    Orderly e ⟨.attach config registry, before, exchanges, .inspection, afterInspection⟩
  /-- Then it waits to be taken as an observer. -/
  | register {config : Config} {registry : Registry} {before : EngineState}
      {exchanges : List Exchange} :
    Orderly e ⟨.attach config registry, before, exchanges, .register .all, afterRegister⟩

/-- An engine that works is not stopped by it. -/
theorem tornDown_of_works {s s' : EngineState} (h : Relation.ReflTransGen e.Works s s') :
    s'.tornDown = s.tornDown := by
  induction h with
  | refl => rfl
  | tail _ hstep ih => exact hstep.2.trans ih

theorem inStep_of_works {s s' : EngineState} (h : Relation.ReflTransGen e.Works s s')
    (hs : s.InStep) : s'.InStep := by
  induction h with
  | refl => exact hs
  | tail _ hstep ih => exact e.preserved_inStep _ _ hstep.1 ih

/-! ### What a turn can do -/

/-- Moves that wait, of which none attaches. -/
def Waits (e : Engine) (waiting waiting' : List Pending) : Prop :=
  waiting' = waiting ∨ ∃ f, e.Orderly f ∧ f.attaches = false ∧ waiting' = f :: waiting

/-- An incident with which nothing is decided. -/
structure Plain (x : Incident) : Prop where
  registers : x.registers = false
  withdraws : x.withdraws = false
  tearDown? : x.tearDown? = none

/-- An incident at which nothing happens to the engine. -/
structure Quiet (x : Incident) : Prop extends Plain x where
  installs : ¬ x.Installs
  idle : x.Idle

/-- What comes of an event up to its next question, in an engine that was running. -/
structure Works.Lands (e : Engine) (s : EngineState) (held : Bool) (waiting : List Pending)
    (y : Incident) (s' : Scene) : Prop where
  state : y.state = s'.state
  inStep : s'.state.InStep
  tornDown : s'.state.tornDown = s.tornDown
  held : s'.held = held
  waiting : e.Waits waiting s'.waiting
  plain : Plain y
  installs : y.Installs → s'.state.tornDown = false
  idle : y.Idle

theorem land_event (event : Event) {before : EngineState} (exchanges : List Exchange) (held : Bool)
    (waiting : List Pending) {p : Proc EngineState Bool} {s : EngineState} (hs : s.InStep)
    (hbefore : before.tornDown = false) (hp : p.Permitted Asks e.Works s)
    (hyields : p.Yields (· = false)) :
    ∃ y s', Pending.land (.event event) before exchanges held waiting (p.settle s) = ([y], s') ∧
      Works.Lands e s held waiting y s' := by
  obtain ⟨hreach, hrest⟩ := hp.settle
  have hresult := hyields.settle s
  rcases hsettle : p.settle s with ⟨made | ⟨q, next⟩, s'⟩
  · rw [hsettle] at hreach hresult
    obtain rfl : made = false := hresult
    refine ⟨_, _, rfl, rfl, inStep_of_works hreach hs, tornDown_of_works hreach, rfl, .inl rfl,
      ⟨rfl, rfl, rfl⟩, False.elim, fun hdown => ?_⟩
    exact absurd (hbefore.symm.trans hdown) Bool.false_ne_true
  · rw [hsettle] at hreach hresult hrest
    obtain ⟨⟨hnegotiates, hinstall⟩, hnext⟩ := hrest
    refine ⟨_, _, rfl, rfl, inStep_of_works hreach hs, tornDown_of_works hreach, rfl,
      .inr ⟨_, .event hbefore hnegotiates hnext hresult, rfl, rfl⟩, ⟨rfl, ?_, rfl⟩, ?_, trivial⟩
    · cases q with
      | unregister => exact absurd trivial hnegotiates
      | _ => rfl
    · cases q with
      | install => exact fun _ => hinstall.resolve_left id
      | _ => exact False.elim

/-- How many moves that wait attach. -/
def attaching? (waiting : List Pending) : Nat := waiting.countP Pending.attaches

theorem Waits.attaching? {waiting waiting' : List Pending} (h : e.Waits waiting waiting') :
    Engine.attaching? waiting' = Engine.attaching? waiting := by
  rcases h with rfl | ⟨f, -, hf, rfl⟩
  · rfl
  · exact List.countP_cons_of_neg (Bool.not_eq_true _ ▸ hf)

theorem Waits.orderly {waiting waiting' : List Pending} (h : e.Waits waiting waiting')
    (hwaiting : ∀ f ∈ waiting, e.Orderly f) : ∀ f ∈ waiting', e.Orderly f := by
  rcases h with rfl | ⟨f, hf, -, rfl⟩
  · exact hwaiting
  · exact List.forall_mem_cons.mpr ⟨hf, hwaiting⟩

/-- What happens in one turn, with what is known of the scene behind it. -/
structure Fair (e : Engine) (s : Scene) (x y : Incident) (s' : Scene) : Prop where
  first : x.state = s.state
  second : y.state = s'.state
  inStep : s'.state.InStep
  waiting : ∀ f ∈ s'.waiting, e.Orderly f
  /-- No body is installed once the engine is stopped. -/
  installs : ¬ x.Installs ∧ (y.Installs → s'.state.tornDown = false)
  /-- An event that is delivered to a stopped engine does nothing. -/
  idle : x.Idle ∧ y.Idle
  /-- The engine is stopped exactly if its state is torn down, for the first time. -/
  stops : s'.state.tornDown = s.state.tornDown ∧
      (∀ answer ∈ [x, y].filterMap Incident.tearDown?, s.state.tornDown = true ∧ answer = false) ∨
    s.state.tornDown = false ∧ s'.state.tornDown = true ∧
      [x, y].filterMap Incident.tearDown? = [true]
  /-- The runtime is told that the engine is gone by a stopped engine. -/
  withdraws : x.withdraws = false ∧ (y.withdraws = true → s'.state.tornDown = true)
  /-- It is told so when the handle is given up. -/
  balance : s.held.toNat + attaching? s.waiting ≤ 1 →
    [x, y].countP Incident.withdraws + s'.held.toNat =
      [x, y].countP Incident.registers + s.held.toNat
  /-- An engine is attached only before it is told of anything. -/
  attaches : [x, y].countP Incident.registers + attaching? s'.waiting ≤ attaching? s.waiting ∨
    (s.held = false ∧ s.state.tornDown = false ∧ attaching? s.waiting = 0) ∧
      [x, y].countP Incident.registers + attaching? s'.waiting ≤ 1

/-- The state is torn down when the handle is given up, or by itself. -/
theorem stops_tearDown {s : EngineState} {x y : Incident} (hx : x.tearDown? = some s.tearDown.1)
    (hy : y.tearDown? = none) :
    s.tearDown.2.tornDown = s.tornDown ∧
        (∀ answer ∈ [x, y].filterMap Incident.tearDown?, s.tornDown = true ∧ answer = false) ∨
      s.tornDown = false ∧ s.tearDown.2.tornDown = true ∧
        [x, y].filterMap Incident.tearDown? = [true] := by
  cases hup : s.tornDown with
  | true =>
    left
    refine ⟨EngineState.tornDown_tearDown s, fun answer hanswer => ⟨rfl, ?_⟩⟩
    simpa [hx, hy, EngineState.tearDown, hup] using hanswer
  | false =>
    right
    refine ⟨rfl, EngineState.tornDown_tearDown s, ?_⟩
    simp [hx, hy, EngineState.tearDown, hup]

section Fair

variable {s : EngineState} {held : Bool} {waiting : List Pending}
  (hwaiting : ∀ f ∈ waiting, e.Orderly f)
include hwaiting

/-- What comes of an event that is, or was, dealt with by an engine that was running. -/
theorem fair_of_lands {x y : Incident} {pending : List Pending} {s' : Scene}
    (hpending : attaching? pending = attaching? waiting) (hx : x.state = s) (hquiet : Quiet x)
    (hlands : Works.Lands e s held waiting y s') : e.Fair ⟨s, held, pending⟩ x y s' where
  first := hx
  second := hlands.state
  inStep := hlands.inStep
  waiting := hlands.waiting.orderly hwaiting
  installs := ⟨hquiet.installs, hlands.installs⟩
  idle := ⟨hquiet.idle, hlands.idle⟩
  stops := by
    refine .inl ⟨hlands.tornDown, fun answer hanswer => ?_⟩
    simp [hquiet.tearDown?, hlands.plain.tearDown?] at hanswer
  withdraws := ⟨hquiet.withdraws, fun h => absurd (hlands.plain.withdraws.symm.trans h)
    Bool.false_ne_true⟩
  balance _ := by
    simp [hquiet.withdraws, hquiet.registers, hlands.plain.withdraws, hlands.plain.registers,
      hlands.held]
  attaches := by
    left
    rw [hlands.waiting.attaching?, hpending]
    simp [hquiet.registers, hlands.plain.registers]

variable (hs : s.InStep)
include hs

/-- A stopped engine does nothing about an event. -/
theorem fair_ignored (hdown : s.tornDown = true) (event : Event) :
    e.Fair ⟨s, held, waiting⟩ (.began (.event event) s) (.ended (.event event) s [] s)
      ⟨s, held, waiting⟩ where
  first := rfl
  second := rfl
  inStep := hs
  waiting := hwaiting
  installs := ⟨id, False.elim⟩
  idle := ⟨trivial, fun _ => ⟨rfl, rfl⟩⟩
  stops := by
    refine .inl ⟨rfl, ?_⟩
    cases event with
    | shuttingDown => simp [Incident.tearDown?, hdown]
    | _ => simp [Incident.tearDown?]
  withdraws := ⟨rfl, nofun⟩
  balance _ := rfl
  attaches := .inl (Nat.le_of_eq (Nat.zero_add _))

/-- The end of the runtime stops an engine that was running, at once. -/
theorem fair_shuttingDown (hup : s.tornDown = false) :
    e.Fair ⟨s, held, waiting⟩ (.began (.event .shuttingDown) s)
      (.ended (.event .shuttingDown) s [] (s.countEvent .shutdown).tearDown.2)
      ⟨(s.countEvent .shutdown).tearDown.2, held, waiting⟩ where
  first := rfl
  second := rfl
  inStep := (e.preserved_inStep _ _ (.counted s .shutdown) hs).tearDown
  waiting := hwaiting
  installs := ⟨id, False.elim⟩
  idle := ⟨trivial, fun hdown => absurd (hup.symm.trans hdown) Bool.false_ne_true⟩
  stops := by
    refine .inr ⟨hup, EngineState.tornDown_tearDown _, ?_⟩
    simp [Incident.tearDown?, EngineState.tearDown, hup]
  withdraws := ⟨rfl, nofun⟩
  balance _ := rfl
  attaches := .inl (Nat.le_of_eq (Nat.zero_add _))

/-- An event that is delivered. -/
theorem fair_event (event : Event) :
    ∃ y s', Pending.land (.event event) s [] held waiting
        (((e.handle event).bind fun _ => .done false).settle s) = ([y], s') ∧
      e.Fair ⟨s, held, waiting⟩ (.began (.event event) s) y s' := by
  cases hup : s.tornDown with
  | true =>
    rw [settle_handle, if_pos hup]
    exact ⟨_, _, rfl, fair_ignored hwaiting hs hup event⟩
  | false =>
    by_cases hevent : event = .shuttingDown
    · obtain rfl := hevent
      rw [settle_handle, if_neg (Bool.not_eq_true _ ▸ hup)]
      exact ⟨_, _, rfl, fair_shuttingDown hwaiting hs hup⟩
    · -- no other event stops the engine, so all that is done about it is work
      have hpermitted : ((e.handle event).bind fun _ => .done false).Permitted Asks e.Works s :=
        ((e.permitted_handle event s).mono (fun _ _ => id)
          fun _ _ hstep => ⟨hstep.1, hstep.2 hevent⟩).bind fun _ _ => trivial
      obtain ⟨y, s', hland, hlands⟩ := land_event event [] held waiting hs hup hpermitted
        (.bind (P := (· = false)) (f := fun _ => .done false) (fun _ => rfl) (e.handle event))
      refine ⟨y, s', hland, fair_of_lands hwaiting rfl rfl ⟨⟨rfl, rfl, ?_⟩, id, trivial⟩ hlands⟩
      cases event with
      | shuttingDown => exact absurd rfl hevent
      | _ => rfl

end Fair

/-- The handle is given up, or the state is torn down by itself. -/
theorem fair_leave {s : EngineState} {held held' : Bool} {waiting waiting' : List Pending}
    {x y : Incident} (hs : s.InStep) (hwaiting : ∀ f ∈ waiting, e.Orderly f)
    (hx : x = .began .detach s ∨ x = .began .drop s ∨ x = .began .tearDown s)
    (hy : y = .asked .unregister s.tearDown.2 ∧ held = true ∧ held' = false ∨
      y = .ended .tearDown s [] s.tearDown.2 ∧ held' = held)
    (hwaiting' : e.Waits waiting waiting') :
    e.Fair ⟨s, held, waiting⟩ x y ⟨s.tearDown.2, held', waiting'⟩ where
  first := by rcases hx with rfl | rfl | rfl <;> rfl
  second := by rcases hy with ⟨rfl, -⟩ | ⟨rfl, -⟩ <;> rfl
  inStep := hs.tearDown
  waiting := hwaiting'.orderly hwaiting
  installs := by
    rcases hx with rfl | rfl | rfl <;> rcases hy with ⟨rfl, -⟩ | ⟨rfl, -⟩ <;>
      exact ⟨id, False.elim⟩
  idle := by
    rcases hx with rfl | rfl | rfl <;> rcases hy with ⟨rfl, -⟩ | ⟨rfl, -⟩ <;>
      exact ⟨trivial, trivial⟩
  stops := by
    refine stops_tearDown ?_ ?_
    · rcases hx with rfl | rfl | rfl <;> rfl
    · rcases hy with ⟨rfl, -⟩ | ⟨rfl, -⟩ <;> rfl
  withdraws := by
    refine ⟨?_, fun _ => EngineState.tornDown_tearDown s⟩
    rcases hx with rfl | rfl | rfl <;> rfl
  balance _ := by
    rcases hx with rfl | rfl | rfl <;> rcases hy with ⟨rfl, rfl, rfl⟩ | ⟨rfl, rfl⟩ <;> rfl
  attaches := by
    left
    rw [hwaiting'.attaching?]
    rcases hx with rfl | rfl | rfl <;> rcases hy with ⟨rfl, -⟩ | ⟨rfl, -⟩ <;>
      exact Nat.le_of_eq (Nat.zero_add _)

/-- What a move that gives up the handle waits for is the end of it. -/
theorem settle_detach (s : EngineState) :
    ((({} : Handle).detach).bind fun _ => .done false).settle s =
      (.ask .unregister fun _ => .done false, s.tearDown.2) := rfl

theorem settle_drop (s : EngineState) :
    ((({} : Handle).drop).bind fun _ => .done false).settle s =
      (.ask .unregister fun _ => .done false, s.tearDown.2) := rfl

/-- Nothing happens to the engine. -/
theorem fair_quiet {s : EngineState} {held : Bool} {pending waiting : List Pending} {x y : Incident}
    (hs : s.InStep) (hwaiting : ∀ f ∈ waiting, e.Orderly f) (hx : x.state = s) (hy : y.state = s)
    (hxquiet : Quiet x) (hyquiet : Quiet y) (hcount : attaching? waiting ≤ attaching? pending) :
    e.Fair ⟨s, held, pending⟩ x y ⟨s, held, waiting⟩ where
  first := hx
  second := hy
  inStep := hs
  waiting := hwaiting
  installs := ⟨hxquiet.installs, fun h => absurd h hyquiet.installs⟩
  idle := ⟨hxquiet.idle, hyquiet.idle⟩
  stops := .inl ⟨rfl, by simp [hxquiet.tearDown?, hyquiet.tearDown?]⟩
  withdraws := ⟨hxquiet.withdraws, fun h => absurd (hyquiet.withdraws.symm.trans h)
    Bool.false_ne_true⟩
  balance _ := by simp [hxquiet.registers, hxquiet.withdraws, hyquiet.registers, hyquiet.withdraws]
  attaches := .inl <| by simpa [hxquiet.registers, hyquiet.registers] using hcount

/-- A move that is no event comes to an end behind an answer, and changes nothing. -/
theorem fair_ended {s : EngineState} {held : Bool} {waiting : List Pending} {f : Pending}
    {x : Exchange} {exchanges : List Exchange} (hs : s.InStep)
    (hwaiting : ∀ f ∈ waiting, e.Orderly f) (hx : Quiet (.answered x s))
    (hmove : ∀ event, f.move ≠ .event event) :
    e.Fair ⟨s, held, f :: waiting⟩ (.answered x s) (.ended f.move f.before exchanges s)
      ⟨s, held, waiting⟩ := by
  have hended : Quiet (.ended f.move f.before exchanges s) := by
    refine ⟨⟨rfl, rfl, rfl⟩, id, ?_⟩
    cases hf : f.move with
    | event event => exact absurd hf (hmove event)
    | _ => exact trivial
  exact fair_quiet hs hwaiting rfl rfl hx hended (List.sublist_cons_self f waiting).countP_le

/-- The runtime takes the engine as an observer, and whoever attaches it gets the handle. -/
theorem fair_registered {s : EngineState} {held : Bool} {waiting : List Pending}
    {config : Config} {registry : Registry} {before : EngineState}
    {exchanges exchanges' : List Exchange}
    (hs : s.InStep) (hwaiting : ∀ f ∈ waiting, e.Orderly f) :
    e.Fair ⟨s, held, ⟨.attach config registry, before, exchanges, .register .all, afterRegister⟩ ::
        waiting⟩
      (.answered ⟨.register .all, .ok ()⟩ s) (.ended (.attach config registry) before exchanges' s)
      ⟨s, true, waiting⟩ := by
  have hcount : attaching? (⟨.attach config registry, before, exchanges, .register .all,
      afterRegister⟩ :: waiting) = attaching? waiting + 1 := List.countP_cons_of_pos rfl
  refine ⟨rfl, rfl, hs, hwaiting, ⟨id, False.elim⟩, ⟨trivial, trivial⟩, .inl ⟨rfl, nofun⟩,
    ⟨rfl, nofun⟩, fun hbalance => ?_, .inl ?_⟩
  · -- nobody holds the engine while it is being attached
    have hfree : held = false := by
      rw [hcount] at hbalance
      cases held with
      | true => exact absurd hbalance (by simp)
      | false => rfl
    subst hfree
    rfl
  · rw [hcount]
    exact Nat.le_of_eq (Nat.add_comm _ _)

/-- The innermost question is answered. -/
theorem fair_answer {s : EngineState} {held : Bool} {waiting : List Pending} {f : Pending}
    (hf : e.Orderly f) (hs : s.InStep) (hwaiting : ∀ f ∈ waiting, e.Orderly f)
    (a : f.query.Answer) :
    ∃ y s', Pending.land f.move f.before (f.exchanges ++ [⟨f.query, a⟩]) held waiting
        ((f.next a).settle s) = ([y], s') ∧
      e.Fair ⟨s, held, f :: waiting⟩ (.answered ⟨f.query, a⟩ s) y s' := by
  cases hf with
  | @event event before exchanges q next hbefore hnegotiates hnext hyields =>
    obtain ⟨y, s', hland, hlands⟩ := land_event event
      (exchanges ++ [⟨q, a⟩]) held waiting hs hbefore
      (hnext a s) (hyields a)
    refine ⟨y, s', hland, fair_of_lands hwaiting (List.countP_cons_of_neg Bool.false_ne_true) rfl
      ⟨⟨?_, rfl, rfl⟩, id, trivial⟩ hlands⟩
    cases q with
    | register => exact absurd trivial hnegotiates
    | _ => rfl
  | detach => exact ⟨_, _, rfl, fair_ended hs hwaiting ⟨⟨rfl, rfl, rfl⟩, id, trivial⟩ nofun⟩
  | drop => exact ⟨_, _, rfl, fair_ended hs hwaiting ⟨⟨rfl, rfl, rfl⟩, id, trivial⟩ nofun⟩
  | @version config registry before exchanges =>
    have hx : Quiet (.answered ⟨.version, a⟩ s) := ⟨⟨rfl, rfl, rfl⟩, id, trivial⟩
    cases a with
    | error err => exact ⟨_, _, rfl, fair_ended hs hwaiting hx nofun⟩
    | ok version =>
      simp only [afterVersion]
      cases version.check config.runtimeHint with
      | error err => exact ⟨_, _, rfl, fair_ended hs hwaiting hx nofun⟩
      | ok _ =>
        exact ⟨_, _, rfl, fair_quiet hs (List.forall_mem_cons.mpr ⟨.inspection, hwaiting⟩) rfl rfl
          hx ⟨⟨rfl, rfl, rfl⟩, id, trivial⟩ (Nat.le_refl _)⟩
  | @inspection config registry before exchanges =>
    have hx : Quiet (.answered ⟨.inspection, a⟩ s) := ⟨⟨rfl, rfl, rfl⟩, id, trivial⟩
    cases a with
    | error err => exact ⟨_, _, rfl, fair_ended hs hwaiting hx nofun⟩
    | ok _ =>
      exact ⟨_, _, rfl, fair_quiet hs (List.forall_mem_cons.mpr ⟨.register, hwaiting⟩) rfl rfl
        hx ⟨⟨rfl, rfl, rfl⟩, id, trivial⟩ (Nat.le_refl _)⟩
  | @register config registry before exchanges =>
    cases a with
    | error err => exact ⟨_, _, rfl, fair_ended hs hwaiting ⟨⟨rfl, rfl, rfl⟩, id, trivial⟩ nofun⟩
    | ok _ => exact ⟨_, ⟨s, true, waiting⟩, rfl, fair_registered hs hwaiting⟩

/-- Attaching asks for the runtime's version, and changes nothing before. -/
theorem fair_attach (e : Engine) (config : Config) (registry : Registry) (limit : Nat) :
    e.Fair (.fresh limit) (.began (.attach config registry) (.fresh limit))
      (.asked .version (.fresh limit)) ⟨.fresh limit, false,
        [⟨.attach config registry, .fresh limit, [], .version, afterVersion config⟩]⟩ where
  first := rfl
  second := rfl
  inStep := EngineState.inStep_fresh limit
  waiting := List.forall_mem_singleton.mpr .version
  installs := ⟨id, False.elim⟩
  idle := ⟨trivial, trivial⟩
  stops := .inl ⟨rfl, nofun⟩
  withdraws := ⟨rfl, nofun⟩
  balance _ := rfl
  attaches := .inr ⟨⟨rfl, rfl, rfl⟩, Nat.le_refl 1⟩

/-- Every turn is fair. -/
theorem fair_turn {s s' : Scene} {new : List Incident} (hturn : e.Turn s new s')
    (hs : s.state.InStep) (hwaiting : ∀ f ∈ s.waiting, e.Orderly f) :
    ∃ x y, new = [x, y] ∧ e.Fair s x y s' := by
  cases hturn with
  | @attach config registry limit he =>
    rw [attaching_eq]
    split
    · exact ⟨_, _, rfl, fair_attach e config registry limit⟩
    · -- the configuration is refused before anything is asked
      exact ⟨_, _, rfl, fair_quiet hs hwaiting rfl rfl ⟨⟨rfl, rfl, rfl⟩, id, trivial⟩
        ⟨⟨rfl, rfl, rfl⟩, id, trivial⟩ (Nat.le_refl 0)⟩
  | move hbegins =>
    cases hbegins with
    | event held event =>
      obtain ⟨y, s', hland, hfair⟩ := fair_event hwaiting hs event
      rw [hland]
      exact ⟨_, y, rfl, hfair⟩
    | detach =>
      rw [settle_detach]
      exact ⟨_, _, rfl, fair_leave hs hwaiting (.inl rfl) (.inl ⟨rfl, rfl, rfl⟩)
        (.inr ⟨_, .detach, rfl, rfl⟩)⟩
    | drop =>
      rw [settle_drop]
      exact ⟨_, _, rfl, fair_leave hs hwaiting (.inr (.inl rfl)) (.inl ⟨rfl, rfl, rfl⟩)
        (.inr ⟨_, .drop, rfl, rfl⟩)⟩
    | tearDown held =>
      exact ⟨_, _, rfl, fair_leave hs hwaiting (.inr (.inr rfl)) (.inr ⟨rfl, rfl⟩) (.inl rfl)⟩
  | @answer t held waiting f a =>
    obtain ⟨hf, hwaiting⟩ := List.forall_mem_cons.mp hwaiting
    obtain ⟨y, s', hland, hfair⟩ := fair_answer hf hs hwaiting a
    rw [hland]
    exact ⟨_, y, rfl, hfair⟩

/-! ### What a run can do -/

/-- What a run was, and how it left the scene. -/
structure Chronicle (e : Engine) (log : List Incident) (s : Scene) : Prop where
  inStep : s.state.InStep
  waiting : ∀ f ∈ s.waiting, e.Orderly f
  past : ∀ x ∈ log, x.state.InStep ∧ x.Idle ∧ (x.state.tornDown = true → s.state.tornDown = true)
  final : log.Pairwise fun x y => x.state.tornDown = true → y.state.tornDown = true ∧ ¬ y.Installs
  stops : ∃ n, log.filterMap Incident.tearDown? =
    if s.state.tornDown then true :: List.replicate n false else []
  told : s.state.tornDown = false → log.countP Incident.withdraws = 0
  balance : log.countP Incident.withdraws + s.held.toNat = log.countP Incident.registers
  once : log.countP Incident.registers + attaching? s.waiting ≤ 1

theorem chronicle_fresh (e : Engine) (limit : Nat) : e.Chronicle [] (.fresh limit) where
  inStep := EngineState.inStep_fresh limit
  waiting _ hf := absurd hf List.not_mem_nil
  past _ hx := absurd hx List.not_mem_nil
  final := .nil
  stops := ⟨0, rfl⟩
  told _ := rfl
  balance := rfl
  once := Nat.zero_le 1

/-- The state is torn down for the first time once. -/
theorem Fair.stops_append {s s' : Scene} {x y : Incident} (hfair : e.Fair s x y s')
    {log : List Incident} (hstops : ∃ n, log.filterMap Incident.tearDown? =
      if s.state.tornDown then true :: List.replicate n false else []) :
    ∃ n, (log ++ [x, y]).filterMap Incident.tearDown? =
      if s'.state.tornDown then true :: List.replicate n false else [] := by
  obtain ⟨n, hstops⟩ := hstops
  rw [List.filterMap_append, hstops]
  rcases hfair.stops with ⟨hsame, hall⟩ | ⟨hup, hdown, hnew⟩
  · rw [hsame]
    cases hdown : s.state.tornDown with
    | false =>
      have hnone : [x, y].filterMap Incident.tearDown? = [] :=
        List.eq_nil_iff_forall_not_mem.mpr fun answer hanswer =>
          absurd (hdown.symm.trans (hall answer hanswer).1) Bool.false_ne_true
      exact ⟨0, by rw [hnone]; rfl⟩
    | true =>
      obtain ⟨k, hnew⟩ : ∃ k, [x, y].filterMap Incident.tearDown? = List.replicate k false :=
        ⟨_, List.eq_replicate_iff.mpr ⟨rfl, fun answer hanswer => (hall answer hanswer).2⟩⟩
      refine ⟨n + k, ?_⟩
      rw [hnew, if_pos rfl, if_pos rfl, List.cons_append, List.replicate_append_replicate]
  · exact ⟨0, by rw [hnew, hup, hdown]; rfl⟩

/-- A stopped engine stays stopped in a turn. -/
theorem Fair.kept {s s' : Scene} {x y : Incident} (hfair : e.Fair s x y s')
    (hdown : s.state.tornDown = true) : s'.state.tornDown = true := by
  rcases hfair.stops with ⟨hsame, -⟩ | ⟨hup, -⟩
  · exact hsame.trans hdown
  · exact absurd (hup.symm.trans hdown) Bool.false_ne_true

/-- One more turn. -/
theorem Chronicle.snoc {log new : List Incident} {s s' : Scene} (h : e.Chronicle log s)
    (hturn : e.Turn s new s') : e.Chronicle (log ++ new) s' := by
  obtain ⟨x, y, rfl, hfair⟩ := fair_turn hturn h.inStep h.waiting
  have hy : s'.state.tornDown = true → y.state.tornDown = true ∧ ¬ y.Installs := fun hdown =>
    ⟨hfair.second ▸ hdown,
      fun h => absurd ((hfair.installs.2 h).symm.trans hdown) Bool.false_ne_true⟩
  have hsum : log.countP Incident.registers = log.countP Incident.withdraws + s.held.toNat :=
    h.balance.symm
  constructor
  case inStep => exact hfair.inStep
  case waiting => exact hfair.waiting
  case past =>
    intro z hz
    rcases List.mem_append.mp hz with hz | hz
    · obtain ⟨hstep, hidle, hdown⟩ := h.past z hz
      exact ⟨hstep, hidle, hfair.kept ∘ hdown⟩
    · rcases List.mem_cons.mp hz with rfl | hz
      · rw [hfair.first]
        exact ⟨h.inStep, hfair.idle.1, hfair.kept⟩
      · obtain rfl := List.mem_singleton.mp hz
        rw [hfair.second]
        exact ⟨hfair.inStep, hfair.idle.2, id⟩
  case final =>
    refine List.pairwise_append.mpr ⟨h.final, ?_, fun z hz z' hz' hdown => ?_⟩
    · refine List.pairwise_pair.mpr fun hdown => hy (hfair.kept ?_)
      exact hfair.first ▸ hdown
    · have hnow : s.state.tornDown = true := (h.past z hz).2.2 hdown
      rcases List.mem_cons.mp hz' with rfl | hz'
      · exact ⟨hfair.first ▸ hnow, hfair.installs.1⟩
      · obtain rfl := List.mem_singleton.mp hz'
        exact hy (hfair.kept hnow)
  case stops => exact hfair.stops_append h.stops
  case told =>
    intro hup
    have hbefore : s.state.tornDown = false := by
      cases hdown : s.state.tornDown with
      | false => rfl
      | true => exact absurd (hup.symm.trans (hfair.kept hdown)) Bool.false_ne_true
    have hywithdraws : y.withdraws = false := by
      cases hw : y.withdraws with
      | false => rfl
      | true => exact absurd (hup.symm.trans (hfair.withdraws.2 hw)) Bool.false_ne_true
    rw [List.countP_append, h.told hbefore]
    simp [hfair.withdraws.1, hywithdraws]
  case balance =>
    have hnew := hfair.balance (by have := h.once; omega)
    rw [List.countP_append, List.countP_append]
    omega
  case once =>
    rw [List.countP_append]
    have := h.once
    rcases hfair.attaches with hfewer | ⟨⟨hheld, hup, hnone⟩, hone⟩
    · omega
    · -- it is attached now, so it was never taken as an observer before
      have hnever := h.told hup
      rw [hheld] at hsum
      simp only [Bool.toNat_false] at hsum
      omega

theorem chronicle_of_plays {limit : Nat} {log : List Incident} {s : Scene}
    (hplays : e.Plays (.fresh limit) log s) : e.Chronicle log s := by
  generalize hstart : Scene.fresh limit = start at hplays
  induction hplays with
  | nil =>
    obtain rfl := hstart
    exact chronicle_fresh e limit
  | snoc _ hturn ih => exact ih.snoc hturn

/-- An engine that was stopped stays stopped, in every run, whatever the runtime answers and
whatever else happens while it does.  Once it is stopped, it calls for no body to be installed, it
has no record and no token cache, and an event changes nothing and leads to no question.  The state
is torn down for the first time once.  The runtime is told that the engine is gone once for every
handle that was given up, and there is one handle at most. -/
theorem teardown_final (e : Engine) {limit : Nat} {log : List Incident} {s : Scene}
    (hplays : e.Plays (.fresh limit) log s) :
    (log.Pairwise fun x y =>
      x.state.tornDown = true → y.state.tornDown = true ∧ ¬ y.Installs) ∧
    (∀ x ∈ log, x.state.tornDown = true →
      (x.state.live = ∅ ∧ x.state.emitter.live = ∅) ∧
      s.state.tornDown = true ∧ s.state.live = ∅ ∧ s.state.emitter.live = ∅) ∧
    (∀ event before exchanges t, .ended (.event event) before exchanges t ∈ log →
      before.tornDown = true → t = before ∧ exchanges = []) ∧
    (∃ n, log.filterMap Incident.tearDown? =
      if s.state.tornDown then true :: List.replicate n false else []) ∧
    log.countP Incident.withdraws + s.held.toNat = log.countP Incident.registers ∧
    log.countP Incident.registers ≤ 1 := by
  have h := chronicle_of_plays hplays
  refine ⟨h.final, fun x hx hdown => ?_, fun event before exchanges t hended hdown => ?_, h.stops,
    h.balance, Nat.le_trans (Nat.le_add_right _ _) h.once⟩
  · obtain ⟨hstep, -, hlast⟩ := h.past x hx
    exact ⟨hstep.empty_of_tornDown hdown, hlast hdown, h.inStep.empty_of_tornDown (hlast hdown)⟩
  · exact (h.past _ hended).2.1 hdown

/-! ### An engine that is stopped in the middle of a load -/

/-- An engine is attached to a runtime that grants everything. -/
theorem plays_attach {config : Config} (registry : Registry) (limit : Nat)
    {version : RuntimeVersion}
    (henabled : config.enabled = true) (hversion : version.check config.runtimeHint = .ok ()) :
    ∃ log, (ofConfig config registry).Plays (.fresh limit) log ⟨.fresh limit, true, []⟩ := by
  have hattach : (ofConfig config registry).Turn (.fresh limit) _ _ := .attach rfl
  rw [attaching_eq, if_pos henabled] at hattach
  have hchecked : (ofConfig config registry).Turn ⟨.fresh limit, false, [_]⟩ _ _ :=
    .answer ⟨.attach config registry, .fresh limit, [], .version, afterVersion config⟩ (.ok version)
  simp only [afterVersion, hversion] at hchecked
  have hinspected := ((Plays.turn hattach).snoc hchecked).snoc <|
    .answer ⟨.attach config registry, .fresh limit, [⟨.version, .ok version⟩], .inspection,
      afterInspection⟩ (.ok ())
  have hregistered := hinspected.snoc <|
    .answer ⟨.attach config registry, .fresh limit,
      [⟨.version, .ok version⟩, ⟨.inspection, .ok ()⟩], .register .all, afterRegister⟩ (.ok ())
  exact ⟨_, hregistered⟩

/-- The engine is detached, and stops before it asks the runtime to let go. -/
theorem turn_detach (s : EngineState) (waiting : List Pending) :
    e.Turn ⟨s, true, waiting⟩ [.began .detach s, .asked .unregister s.tearDown.2]
      ⟨s.tearDown.2, false, ⟨.detach, s, [], .unregister, fun _ => .done false⟩ :: waiting⟩ := by
  have hturn : e.Turn ⟨s, true, waiting⟩ _ _ := .move .detach
  rwa [settle_detach] at hturn

/-- Whatever the runtime answers, that is the end of it. -/
theorem turn_detached (s before : EngineState) (held : Bool) (waiting : List Pending)
    (answer : Except Error Unit) :
    e.Turn ⟨s, held, ⟨.detach, before, [], .unregister, fun _ => .done false⟩ :: waiting⟩
      [.answered ⟨.unregister, answer⟩ s, .ended .detach before [⟨.unregister, answer⟩] s]
      ⟨s, held, waiting⟩ :=
  .answer ⟨.detach, before, [], .unregister, fun _ => .done false⟩ answer

/-- While a module is loaded, and the runtime is asked what it is, the handle is given up; the
runtime refuses to let go.  It was told once, and the load leaves nothing behind. -/
theorem teardown_final_meanwhile : ∃ log s, constantEngine.Plays (.fresh 3) log s ∧
    s.state.tornDown = true ∧ s.waiting = [] ∧ s.state.live = ∅ ∧ s.state.emitter.live = ∅ ∧
    log.countP Incident.registers = 1 ∧ log.countP Incident.withdraws = 1 := by
  have hsome : (constantEngine.registry.candidatesFor
      ⟨constantFacts.info.assemblyName, constantFacts.info.assemblyVersion⟩).isEmpty = false := by cbv
  have hengine : constantEngine = ofConfig .standard (Registry.empty.add constantRule) := rfl
  have hmajor : RuntimeVersion.major? ⟨"4.8"⟩ = some 4 := by decide
  have hversion : RuntimeVersion.check ⟨"4.8"⟩ none = .ok () := by
    simp [RuntimeVersion.check, RuntimeVersion.oldestMajor, hmajor]
  obtain ⟨logAttach, hattach⟩ :
      ∃ log, constantEngine.Plays (.fresh 3) log ⟨.fresh 3, true, []⟩ := by
    rw [hengine]
    exact plays_attach _ 3 rfl hversion
  have hload := hattach.snoc (turn_load true [] 1 .success rfl rfl)
  have hleave := hload.snoc (turn_detach _ _)
  have hrefused := hleave.snoc (turn_detached _ _ _ _ (.error (.runtimeUnavailable "busy")))
  have hinfo := hrefused.snoc (turn_info _ _ constantFacts.info hsome)
  have hopened := hinfo.snoc <| .answer ⟨.event (.moduleLoaded 1 .success), .fresh 3,
    [⟨.moduleInfo 1, .ok constantFacts.info⟩], .openMetadata 1,
    constantEngine.afterOpen 1 constantFacts.info⟩ (.ok ())
  have hone : logAttach.countP Incident.registers = 1 := by
    obtain ⟨-, -, -, -, htold, honce⟩ := teardown_final constantEngine hattach
    simp only [Bool.toNat_true] at htold
    omega
  obtain ⟨-, hpast, -, -, htold, honce⟩ := teardown_final constantEngine hopened
  change _ + 0 = _ at htold
  simp only [List.countP_append, hone] at htold honce
  refine ⟨_, _, hopened, ?_⟩
  obtain ⟨-, hstopped⟩ := hpast (.asked .unregister
    ((EngineState.fresh 3).countEvent .moduleLoad).tearDown.2) (by simp) (EngineState.tornDown_tearDown _)
  refine ⟨hstopped.1, rfl, hstopped.2.1, hstopped.2.2, ?_, ?_⟩
  · simp only [List.countP_append, hone]
    omega
  · simp only [List.countP_append]
    omega

end Engine

end CilProbe
