/-
CilProbe/Proofs/Engine/Interplay.lean

An engine and what surrounds it, taking turns.  From outside events are delivered, and the
engine is detached or its handle let go; each such `Move` makes the engine ask questions, and
while one is pending further moves may be made, which are dealt with first.  A `Scene` is the
engine's state, the handle, and the moves that wait for an answer, the innermost first.
`Engine.Turn` lets whoever surrounds the engine make any move and give any answer, and
`Engine.Plays` adds up what happens, incident by incident, over any number of turns.

Nothing is assumed of the surroundings, so what holds of these runs holds of every runtime and
at every depth; a delivery against a runtime is one of them (`plays_of_deliver`).
-/
import Mathlib.Logic.Relation
import CilProbe.Engine.Attach
import CilProbe.Proofs.Engine.Steps

namespace CilProbe

/-! ### Up to the next question -/

namespace Proc

variable {σ α : Type}

/-- What a computation comes to by itself: it ends, or it asks something. -/
inductive Rest (σ α : Type) where
  /-- The result. -/
  | done (a : α)
  /-- The question, and how it goes on behind the answer. -/
  | ask (q : Query) (next : q.Answer → Proc σ α)

/-- Run a computation up to its next question. -/
def settle : Proc σ α → σ → Rest σ α × σ
  | .done a, s => (.done a, s)
  | .read next, s => (next s).settle s
  | .write s' next, _ => next.settle s'
  | .ask q next, s => (.ask q next, s)

/-- What is left is permitted as well, and the state was changed in permitted steps. -/
theorem Permitted.settle {Q : σ → Query → Prop} {R : σ → σ → Prop} {p : Proc σ α} {s : σ}
    (hp : p.Permitted Q R s) :
    Relation.ReflTransGen R s (p.settle s).2 ∧
      match (p.settle s).1 with
      | .done _ => True
      | .ask q next => Q (p.settle s).2 q ∧ ∀ a s, (next a).Permitted Q R s := by
  induction p generalizing s with
  | done a => exact ⟨.refl, trivial⟩
  | read next ih => exact ih s hp
  | write s' next ih =>
    obtain ⟨hreach, hrest⟩ := ih hp.2
    exact ⟨.head hp.1 hreach, hrest⟩
  | ask q next ih => exact ⟨.refl, hp⟩

end Proc

/-! ### Scenes -/

/-- Something that happens to an engine from outside. -/
inductive Move where
  /-- An event is delivered to it. -/
  | event (event : Event)
  /-- It is detached. -/
  | detach
  /-- The handle is let go. -/
  | drop
  /-- Its state is torn down. -/
  | tearDown
  /-- It is attached. -/
  | attach (config : Config) (registry : Registry)

/-- A move that waits for an answer. -/
structure Pending where
  /-- The move. -/
  move : Move
  /-- The engine's state when it was made. -/
  before : EngineState
  /-- The questions it has led to so far, with their answers. -/
  exchanges : List Exchange
  /-- The question that is pending. -/
  query : Query
  /-- How it goes on behind the answer, and whether a handle comes of it. -/
  next : query.Answer → Proc EngineState Bool

/-- An engine at one moment. -/
structure Scene where
  /-- The engine's state. -/
  state : EngineState
  /-- Whether somebody holds it attached. -/
  held : Bool
  /-- The moves that wait for an answer, the innermost first. -/
  waiting : List Pending

/-- Something that happens in a run, with the engine's state at that moment. -/
inductive Incident where
  /-- A move is made. -/
  | began (move : Move) (s : EngineState)
  /-- A question is asked. -/
  | asked (q : Query) (s : EngineState)
  /-- A question is answered. -/
  | answered (x : Exchange) (s : EngineState)
  /-- A move is dealt with, which was made in the first state, and led to the exchanges. -/
  | ended (move : Move) (before : EngineState) (exchanges : List Exchange) (s : EngineState)

/-- The engine's state at that moment. -/
def Incident.state : Incident → EngineState
  | .began _ s | .asked _ s | .answered _ s | .ended _ _ _ s => s

/-- What a move comes to by itself: it is dealt with, or it waits for an answer. -/
def Pending.land (move : Move) (before : EngineState) (exchanges : List Exchange)
    (held : Bool) (waiting : List Pending) :
    Proc.Rest EngineState Bool × EngineState → List Incident × Scene
  | (.done made, s) => ([.ended move before exchanges s], ⟨s, made || held, waiting⟩)
  | (.ask q next, s) => ([.asked q s], ⟨s, held, ⟨move, before, exchanges, q, next⟩ :: waiting⟩)

/-- An engine that was told of nothing yet. -/
def Scene.fresh (retryLimit : Nat) : Scene := ⟨.fresh retryLimit, false, []⟩

namespace Engine

/-- Attaching an engine gives whoever does it a handle, if it succeeds. -/
def attaching (config : Config) (registry : Registry) : Proc EngineState Bool :=
  (attach config registry).run.bind fun result => .done result.isOk

/-- Attaching behind the answer to the third question. -/
def afterRegister (answer : Except Error Unit) : Proc EngineState Bool := .done answer.isOk

/-- Attaching behind the answer to the second question. -/
def afterInspection : Except Error Unit → Proc EngineState Bool
  | .ok _ => .ask (.register .all) afterRegister
  | .error _ => .done false

/-- Attaching behind the answer to the first question. -/
def afterVersion (config : Config) : Except Error RuntimeVersion → Proc EngineState Bool
  | .ok version =>
    match version.check config.runtimeHint with
    | .ok _ => .ask .inspection afterInspection
    | .error _ => .done false
  | .error _ => .done false

/-- An engine that is switched on asks three questions. -/
theorem attaching_eq (config : Config) (registry : Registry) :
    attaching config registry =
      if config.enabled then .ask .version (afterVersion config) else .done false := by
  unfold attaching attach
  split
  · show Proc.ask .version _ = .ask .version _
    apply congrArg
    funext answer
    cases answer with
    | error err => rfl
    | ok version =>
      show Proc.bind (ExceptT.run (known (version.check config.runtimeHint) >>= fun _ => _ :
        EngineAttempt Engine)) _ = _
      unfold afterVersion
      dsimp only
      cases version.check config.runtimeHint with
      | error err => rfl
      | ok _ =>
        show Proc.ask .inspection _ = .ask .inspection _
        apply congrArg
        funext answer
        cases answer with
        | error err => rfl
        | ok _ =>
          show Proc.ask (.register .all) _ = .ask (.register .all) _
          apply congrArg
          funext answer
          cases answer with
          | error err => rfl
          | ok _ => rfl
  · rfl

variable (e : Engine)

/-- What an engine does about a move, and whether it is held afterwards; a handle can be given up
once. -/
inductive Begins : Bool → Move → Proc EngineState Bool → Bool → Prop
  | event (held : Bool) (event : Event) :
    Begins held (.event event) ((e.handle event).bind fun _ => .done false) held
  | detach : Begins true .detach ((({} : Handle).detach).bind fun _ => .done false) false
  | drop : Begins true .drop ((({} : Handle).drop).bind fun _ => .done false) false
  | tearDown (held : Bool) :
    Begins held .tearDown (.read fun s => .write s.tearDown.2 (.done false)) held

/-- A move is made, or the innermost question is answered.  An engine is attached before it is
told of anything. -/
inductive Turn : Scene → List Incident → Scene → Prop
  | attach {config registry limit} : e = ofConfig config registry →
    Turn (.fresh limit)
      (.began (.attach config registry) (.fresh limit) ::
        (Pending.land (.attach config registry) (.fresh limit) [] false []
          ((attaching config registry).settle (.fresh limit))).1)
      (Pending.land (.attach config registry) (.fresh limit) [] false []
        ((attaching config registry).settle (.fresh limit))).2
  | move {s held waiting m p held'} : e.Begins held m p held' →
    Turn ⟨s, held, waiting⟩
      (.began m s :: (Pending.land m s [] held' waiting (p.settle s)).1)
      (Pending.land m s [] held' waiting (p.settle s)).2
  | answer {s held waiting} (f : Pending) (a : f.query.Answer) :
    Turn ⟨s, held, f :: waiting⟩
      (.answered ⟨f.query, a⟩ s ::
        (Pending.land f.move f.before (f.exchanges ++ [⟨f.query, a⟩]) held waiting
          ((f.next a).settle s)).1)
      (Pending.land f.move f.before (f.exchanges ++ [⟨f.query, a⟩]) held waiting
        ((f.next a).settle s)).2

/-- What happens between two scenes. -/
inductive Plays : Scene → List Incident → Scene → Prop
  | nil (s : Scene) : Plays s [] s
  | snoc {s s₁ s' log new} : Plays s log s₁ → e.Turn s₁ new s' → Plays s (log ++ new) s'

namespace Plays

variable {e} {s s₁ s' : Scene} {log log' : List Incident}

theorem trans (h : e.Plays s log s₁) (h' : e.Plays s₁ log' s') : e.Plays s (log ++ log') s' := by
  induction h' with
  | nil => rwa [List.append_nil]
  | snoc _ hturn ih =>
    rw [← List.append_assoc]
    exact .snoc ih hturn

theorem turn (h : e.Turn s log s') : e.Plays s log s' := .snoc (.nil s) h

end Plays

/-! ### Deliveries -/

section Deliveries

variable {e} {τ : Type} (h : Host τ) {deliver : Event → World EngineState τ → World EngineState τ}
  (hdeliver : ∀ event w held waiting,
    ∃ log, e.Plays ⟨w.engine, held, waiting⟩ log ⟨(deliver event w).engine, held, waiting⟩)

include hdeliver in
/-- A computation that is run against a runtime, from where it stands after its last answer. -/
theorem plays_of_run (move : Move) (before : EngineState) (held : Bool)
    (waiting : List Pending) (p : Proc EngineState Bool) (exchanges : List Exchange)
    (w : World EngineState τ) :
    ∃ log, e.Plays (Pending.land move before exchanges held waiting (p.settle w.engine)).2 log
      ⟨(p.run h deliver w).2.engine, (p.run h deliver w).1 || held, waiting⟩ := by
  induction p generalizing exchanges w with
  | done a => exact ⟨[], .nil _⟩
  | read next ih => exact ih w.engine exchanges w
  | write s next ih => exact ih exchanges { w with engine := s }
  | ask q next ih =>
    have hevents : ∀ (events : List Event) (w : World EngineState τ) (waiting : List Pending),
        ∃ log, e.Plays ⟨w.engine, held, waiting⟩ log
          ⟨(events.foldl (fun w e => deliver e w) w).engine, held, waiting⟩ := by
      intro events
      induction events with
      | nil => exact fun w _ => ⟨[], .nil _⟩
      | cons event events ih =>
        intro w waiting
        obtain ⟨log, hlog⟩ := hdeliver event w held waiting
        obtain ⟨log', hlog'⟩ := ih (deliver event w) waiting
        exact ⟨log ++ log', hlog.trans hlog'⟩
    obtain ⟨log, hlog⟩ := hevents (h.interrupts q w.host).1 (Proc.interrupted h q w)
      (⟨move, before, exchanges, q, next⟩ :: waiting)
    obtain ⟨log', hlog'⟩ := ih (Proc.exchange h deliver q w).1
      (exchanges ++ [⟨q, (Proc.exchange h deliver q w).1⟩]) (Proc.exchange h deliver q w).2
    exact ⟨_, hlog.trans ((Plays.turn (.answer ⟨move, before, exchanges, q, next⟩ _)).trans hlog')⟩

/-- What happens when an event is delivered, at whatever depth, is a run. -/
theorem plays_of_deliver (e : Engine) (depth : Nat) :
    ∀ event (w : World EngineState τ) held waiting, ∃ log,
      e.Plays ⟨w.engine, held, waiting⟩ log
        ⟨(e.deliver h depth event w).2.engine, held, waiting⟩ := by
  have hhandle : ∀ {deliver : Event → World EngineState τ → World EngineState τ},
      (∀ event w held waiting, ∃ log, e.Plays ⟨w.engine, held, waiting⟩ log
        ⟨(deliver event w).engine, held, waiting⟩) →
      ∀ event w held waiting, ∃ log, e.Plays ⟨w.engine, held, waiting⟩ log
        ⟨((e.handle event).run h deliver w).2.engine, held, waiting⟩ := by
    intro deliver hdeliver event w held waiting
    obtain ⟨log, hlog⟩ := plays_of_run h hdeliver (.event event) w.engine held waiting
      ((e.handle event).bind fun _ => .done false) [] w
    rw [Proc.run_bind] at hlog
    exact ⟨_, (Plays.turn (.move (.event held event))).trans hlog⟩
  induction depth with
  | zero => exact hhandle fun _ w _ _ => ⟨[], .nil _⟩
  | succ depth ih => exact hhandle ih

end Deliveries

end Engine

end CilProbe
