/-
CilProbe/Proofs/Engine/Cues.lean

Runs against a runtime that answers for each module on its own.  What a `Runtime` answers when
it is asked about a module depends on the calls about that module so far, whichever way they went,
and on nothing else.  So a run is settled by its cues: which events are delivered, and when each of
the questions that are pending is answered (`Engine.performs`).  They may come in any order, so
events nest and overlap; delivering an event and waiting until it is dealt with is the case that
its own questions are answered one after the other (`performs_of_deliver`).

What there is to see of one module is a `ModuleView`, and `Engine.alone` keeps those cues of a
run that have to do with it.
-/
import Mathlib.Logic.Function.Basic
import CilProbe.Proofs.Engine.Pairing

namespace CilProbe

/-! ### Calls -/

/-- A call between a runtime and an engine. -/
inductive Call where
  /-- The runtime tells the engine of an event. -/
  | told (event : Event)
  /-- The engine asks the runtime something. -/
  | asked (q : Query)
  /-- It is answered. -/
  | answered (x : Exchange)

namespace Call

/-- A row that was defined, with its token. -/
def row? : Call → Option (MetadataRow × Token)
  | answered ⟨.define _ row, .ok token⟩ => some (row, token)
  | _ => none

/-- A body that was installed, with its method. -/
def body? : Call → Option (Token × List UInt8)
  | answered ⟨.install _ method body, .ok _⟩ => some (method, body)
  | _ => none

end Call

/-! ### Runtimes -/

/-- A runtime that answers for each module on its own. -/
structure Runtime where
  /-- The module that a function is in, for good. -/
  home : FunctionId → ModuleId
  /-- What is answered after the given calls about the same module. -/
  reply : List Call → (q : Query) → q.Answer
  home_reply : ∀ past function info, reply past (.functionInfo function) = .ok info →
    info.module = home function

/-- What an engine is told by whoever directs a run. -/
inductive Cue where
  /-- An event is delivered. -/
  | deliver (event : Event)
  /-- One of the questions that events about a module wait for is answered. -/
  | answer (subject : Option ModuleId) (k : Nat)

/-- An event that waits for an answer. -/
structure Pause where
  /-- The question that is pending. -/
  query : Query
  /-- How it goes on behind the answer. -/
  next : query.Answer → Proc EngineState StatusCode

/-- An engine at one moment of a run. -/
structure Stage where
  /-- The engine's state. -/
  state : EngineState
  /-- The events that wait for an answer: those about each module, and those about none. -/
  waiting : Option ModuleId → List Pause
  /-- The calls so far. -/
  calls : List Call

/-- An engine that was told of nothing yet. -/
def Stage.fresh (retryLimit : Nat) : Stage := ⟨.fresh retryLimit, fun _ => [], []⟩

namespace Runtime

variable (r : Runtime)

/-- The module that a question is about, if it is about one. -/
def subject : Query → Option ModuleId
  | .functionInfo function => some (r.home function)
  | .moduleInfo m | .openMetadata m | .metadata m | .define m _ | .readBody m _ | .install m _ _ =>
    some m
  | .version | .inspection | .register _ | .unregister => none

/-- The module that is loaded or unloaded, or that the function which is compiled is in. -/
def module? : Event → Option ModuleId
  | .moduleLoaded m _ | .moduleUnloading m => some m
  | .compiling function _ => some (r.home function)
  | .assemblyUnloading _ | .shuttingDown => none

/-- The module that a call is about, if it is about one. -/
def about : Call → Option ModuleId
  | .told event => r.module? event
  | .asked q => r.subject q
  | .answered x => r.subject x.query

/-- Those calls that are about a module, or about none. -/
def callsAbout (subject : Option ModuleId) (calls : List Call) : List Call :=
  calls.filter fun c => r.about c == subject

/-- The answer to a question. -/
def answer (calls : List Call) (q : Query) : q.Answer :=
  r.reply (r.callsAbout (r.subject q) calls) q

/-- The module that a cue is about, if it is about one. -/
def target : Cue → Option ModuleId
  | .deliver event => r.module? event
  | .answer subject _ => subject

/-- Whether a cue has to do with a module: the cues about it do, and so do the end of the assembly
that it is recorded in and the end of the runtime. -/
def concerns (m : ModuleId) (s : EngineState) : Cue → Bool
  | .deliver (.assemblyUnloading a) => (s.find? m).any fun (_, r) => r.assembly == a
  | .deliver .shuttingDown => true
  | cue => r.target cue == some m

end Runtime

/-! ### Views -/

/-- What there is to see of a module. -/
structure ModuleView where
  /-- Its record, without the numbers. -/
  record : Option ModuleRecord
  /-- Its token cache, with the rows that were emitted. -/
  cache : Option TokenCache
  /-- The rows defined in it, in order. -/
  rows : List (MetadataRow × Token)
  /-- The bodies installed in it, in order. -/
  bodies : List (Token × List UInt8)
  /-- All calls about it, in order. -/
  calls : List Call

/-- What there is to see of a module at one moment. -/
def Runtime.view (r : Runtime) (m : ModuleId) (x : Stage) : ModuleView where
  record := (x.state.find? m).map fun (_, r) => r.plain
  cache := x.state.emitter.find? m
  rows := (r.callsAbout (some m) x.calls).filterMap Call.row?
  bodies := (r.callsAbout (some m) x.calls).filterMap Call.body?
  calls := r.callsAbout (some m) x.calls

/-! ### Runs -/

namespace Stage

/-- A call is made. -/
def note (x : Stage) (c : Call) : Stage := { x with calls := x.calls ++ [c] }

/-- An event goes on up to its next question. -/
def goOn (x : Stage) (subject : Option ModuleId) (p : Proc EngineState StatusCode) : Stage :=
  match p.settle x.state with
  | (.done _, s) => { x with state := s }
  | (.ask q next, s) =>
    ⟨s, Function.update x.waiting subject (⟨q, next⟩ :: x.waiting subject), x.calls ++ [.asked q]⟩

/-- An event waits no longer. -/
def wake (x : Stage) (subject : Option ModuleId) (k : Nat) : Stage :=
  { x with waiting := Function.update x.waiting subject ((x.waiting subject).eraseIdx k) }

end Stage

namespace Engine

variable (e : Engine) (r : Runtime)

/-- What happens at a cue. -/
def perform (x : Stage) : Cue → Stage
  | .deliver event => (x.note (.told event)).goOn (r.module? event) (e.handle event)
  | .answer subject k =>
    match (x.waiting subject)[k]? with
    | none => x
    | some f =>
      let a := r.answer x.calls f.query
      ((x.wake subject k).note (.answered ⟨f.query, a⟩)).goOn subject (f.next a)

/-- What happens at one cue after the other. -/
def performs (x : Stage) (cues : List Cue) : Stage := cues.foldl (e.perform r) x

/-- The cues that have to do with a module. -/
def alone (m : ModuleId) : Stage → List Cue → List Cue
  | _, [] => []
  | x, cue :: cues =>
    if r.concerns m x.state cue then cue :: alone m (e.perform r x cue) cues
    else alone m (e.perform r x cue) cues

/-! ### One event after the other -/

end Engine

/-- The runtime as a host that delivers no event while it is asked something, and remembers all
calls. -/
def Runtime.host (r : Runtime) : Host (List Call) where
  interrupts _ calls := ([], calls)
  answer q calls :=
    let a := r.answer (calls ++ [.asked q]) q
    (a, calls ++ [.asked q] ++ [.answered ⟨q, a⟩])

namespace Engine

variable {e : Engine} {r : Runtime}

/-- Whatever an event leads to, as many answers bring it to an end. -/
theorem performs_of_run (subject : Option ModuleId)
    (deliver : Event → World EngineState (List Call) → World EngineState (List Call))
    (p : Proc EngineState StatusCode) (x : Stage) :
    ∃ n, e.performs r (x.goOn subject p) (List.replicate n (.answer subject 0)) =
      ⟨(p.run r.host deliver ⟨x.state, x.calls⟩).2.engine, x.waiting,
        (p.run r.host deliver ⟨x.state, x.calls⟩).2.host⟩ := by
  induction p generalizing x with
  | done a => exact ⟨0, rfl⟩
  | read next ih => exact ih x.state x
  | write s next ih => exact ih { x with state := s }
  | ask q next ih =>
    -- an answer takes the question off the list, and the event goes on with it
    have hanswered : e.perform r (x.goOn subject (.ask q next)) (.answer subject 0) =
        ((x.note (.asked q)).note (.answered ⟨q, r.answer (x.calls ++ [.asked q]) q⟩)).goOn subject
          (next (r.answer (x.calls ++ [.asked q]) q)) := by
      have hfirst : ((x.goOn subject (.ask q next)).waiting subject)[0]? = some ⟨q, next⟩ := by
        show (Function.update x.waiting subject _ subject)[0]? = _
        rw [Function.update_self]
        rfl
      have hrest : (x.goOn subject (.ask q next)).wake subject 0 = x.note (.asked q) := by
        show Stage.mk x.state (Function.update (Function.update x.waiting subject _) subject
          ((Function.update x.waiting subject _ subject).eraseIdx 0)) _ = _
        rw [Function.update_self, Function.update_idem]
        exact congrArg (Stage.mk x.state · _) (Function.update_eq_self subject x.waiting)
      simp only [perform, hfirst, hrest]
      rfl
    obtain ⟨n, hn⟩ := ih (r.answer (x.calls ++ [.asked q]) q)
      ((x.note (.asked q)).note (.answered ⟨q, r.answer (x.calls ++ [.asked q]) q⟩))
    refine ⟨n + 1, ?_⟩
    rw [List.replicate_succ]
    show e.performs r (e.perform r _ _) _ = _
    rw [hanswered, hn]
    rfl

/-- To deliver an event and wait until it is dealt with is to answer its questions as they come. -/
theorem performs_of_deliver (depth : Nat) (event : Event) (x : Stage) :
    ∃ n, e.performs r x (.deliver event :: List.replicate n (.answer (r.module? event) 0)) =
      ⟨(e.deliver r.host depth event ⟨x.state, x.calls ++ [.told event]⟩).2.engine, x.waiting,
        (e.deliver r.host depth event ⟨x.state, x.calls ++ [.told event]⟩).2.host⟩ := by
  cases depth <;> exact performs_of_run (r.module? event) _ (e.handle event) (x.note (.told event))

end Engine

/-! ### Interleavings -/

/-- A list made of two, in any order that keeps the order of each. -/
inductive Interleaves {α : Type} : List α → List α → List α → Prop
  | nil : Interleaves [] [] []
  | first {as bs cs} (a : α) : Interleaves as bs cs → Interleaves (a :: as) bs (a :: cs)
  | second {as bs cs} (b : α) : Interleaves as bs cs → Interleaves as (b :: bs) (b :: cs)

namespace Interleaves

variable {α : Type} {as bs cs : List α}

theorem swap (h : Interleaves as bs cs) : Interleaves bs as cs := by
  induction h with
  | nil => exact .nil
  | first a _ ih => exact .second a ih
  | second b _ ih => exact .first b ih

theorem mem_iff (h : Interleaves as bs cs) {a : α} : a ∈ cs ↔ a ∈ as ∨ a ∈ bs := by
  induction h with
  | nil => simp
  | first _ _ ih => simp only [List.mem_cons, ih, or_assoc]
  | second _ _ ih => simp only [List.mem_cons, ih, or_left_comm]

/-- What tells the two lists apart finds the first. -/
theorem filter_eq (h : Interleaves as bs cs) {P : α → Bool} (has : ∀ a ∈ as, P a = true)
    (hbs : ∀ b ∈ bs, ¬ P b = true) : cs.filter P = as := by
  induction h with
  | nil => rfl
  | first a _ ih =>
    obtain ⟨ha, has⟩ := List.forall_mem_cons.mp has
    rw [List.filter_cons_of_pos ha, ih has hbs]
  | second b _ ih =>
    obtain ⟨hb, hbs⟩ := List.forall_mem_cons.mp hbs
    rw [List.filter_cons_of_neg hb, ih has hbs]

end Interleaves

end CilProbe
