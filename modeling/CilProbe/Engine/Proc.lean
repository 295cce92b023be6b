/-
CilProbe/Engine/Proc.lean

Computations that talk to a runtime.  A `Proc` reads and writes a state and asks
the runtime questions; what the answers are, and what else happens before they
come, is left open.  `Proc.run` closes it: a `Host` says how a runtime answers
and which events it delivers first.  Those events are handled in the middle of
the computation that asked, and may change the state it works on.
-/
import CilProbe.Host.Event
import CilProbe.Host.Query

namespace CilProbe

/-! ### Computations -/

/-- A computation on a state `σ` that asks a runtime questions. -/
inductive Proc (σ α : Type) : Type where
  /-- The result. -/
  | done (a : α)
  /-- Read the state. -/
  | read (next : σ → Proc σ α)
  /-- Write the state. -/
  | write (s : σ) (next : Proc σ α)
  /-- Ask a question and wait for the answer. -/
  | ask (q : Query) (next : q.Answer → Proc σ α)

namespace Proc

variable {σ α β : Type}

/-- Run one computation and then the one that its result selects. -/
def bind : Proc σ α → (α → Proc σ β) → Proc σ β
  | done a, f => f a
  | read next, f => read fun s => (next s).bind f
  | write s next, f => write s (next.bind f)
  | ask q next, f => ask q fun a => (next a).bind f

instance : Monad (Proc σ) where
  pure := done
  bind := bind

instance : MonadStateOf σ (Proc σ) where
  get := read done
  set s := write s (done ⟨⟩)
  modifyGet f := read fun s => write (f s).2 (done (f s).1)

@[simp] theorem bind_eq (p : Proc σ α) (f : α → Proc σ β) : (p >>= f) = p.bind f := rfl

@[simp] theorem pure_eq (a : α) : (Pure.pure a : Proc σ α) = done a := rfl

theorem bind_done (p : Proc σ α) : p.bind done = p := by
  induction p with
  | done a => rfl
  | read next ih => exact congrArg read (funext ih)
  | write s next ih => exact congrArg (write s) ih
  | ask q next ih => exact congrArg (ask q) (funext ih)

theorem bind_assoc {γ : Type} (p : Proc σ α) (f : α → Proc σ β) (g : β → Proc σ γ) :
    (p.bind f).bind g = p.bind fun a => (f a).bind g := by
  induction p with
  | done a => rfl
  | read next ih => exact congrArg read (funext ih)
  | write s next ih => exact congrArg (write s) ih
  | ask q next ih => exact congrArg (ask q) (funext ih)

/-- Ask a question. -/
def query (q : Query) : Proc σ q.Answer := ask q done

end Proc

/-- A computation that may fail. -/
abbrev Attempt (σ : Type) := ExceptT Error (Proc σ)

/-! ### Runtimes -/

/-- How a runtime with state `τ` behaves when it is asked something. -/
structure Host (τ : Type) where
  /-- The events that it delivers before it answers. -/
  interrupts : Query → τ → List Event × τ
  /-- Its answer. -/
  answer : (q : Query) → τ → q.Answer × τ

/-- An engine's state and that of the runtime it talks to. -/
structure World (σ τ : Type) where
  /-- The engine's state. -/
  engine : σ
  /-- The runtime's state. -/
  host : τ

namespace Proc

variable {σ τ α β : Type}

/-- Let the runtime deliver its events and answer. -/
def exchange (h : Host τ) (deliver : Event → World σ τ → World σ τ) (q : Query) (w : World σ τ) :
    q.Answer × World σ τ :=
  let (events, host) := h.interrupts q w.host
  let w := events.foldl (fun w e => deliver e w) { w with host }
  let (a, host) := h.answer q w.host
  (a, { w with host })

/-- Run a computation against a runtime; `deliver` handles the events that come
in between. -/
def run (h : Host τ) (deliver : Event → World σ τ → World σ τ) :
    Proc σ α → World σ τ → α × World σ τ
  | done a, w => (a, w)
  | read next, w => (next w.engine).run h deliver w
  | write s next, w => next.run h deliver { w with engine := s }
  | ask q next, w =>
    let (a, w) := exchange h deliver q w
    (next a).run h deliver w

/-- Two computations in a row run one after the other. -/
theorem run_bind (h : Host τ) (deliver : Event → World σ τ → World σ τ) (p : Proc σ α)
    (f : α → Proc σ β) (w : World σ τ) :
    (p.bind f).run h deliver w =
      (f (p.run h deliver w).1).run h deliver (p.run h deliver w).2 := by
  induction p generalizing w with
  | done a => rfl
  | read next ih => exact ih w.engine w
  | write s next ih => exact ih { w with engine := s }
  | ask q next ih => exact ih (exchange h deliver q w).1 (exchange h deliver q w).2

end Proc

end CilProbe
