/-
CilProbe/Proofs/Machine/Alike.lean

Runs that go side by side.  Two frames are alike if they differ only in what a method
cannot see: locals that it did not declare, and records that helpers keep in the heap.
An instruction keeps to the locals of its method if it does the same in frames that are
alike, and leaves them alike (`KeepsTo`).  When the code of a method moves, the handlers
that are running move with it.
-/
import CilProbe.Proofs.Machine.Basic

namespace CilProbe

/-! ### Handlers that move -/

section Moving

variable {Value : Type} (edge : Clause → Clause) (move : Offset → Offset) (more : List Clause)

/-- What is to be done when a handler ends, after a move: an exception goes on to the
clauses that have been added behind the others. -/
def Resume.moved : Resume Value → Resume Value
  | .leave rest target => .leave (rest.map edge) (move target)
  | .throw rest exception => .throw (rest.map edge ++ more) exception

/-- A handler that is running, after a move. -/
def Active.moved : Active Value → Active Value
  | .catching clause exception => .catching (edge clause) exception
  | .finishing clause resume => .finishing (edge clause) (resume.moved edge move more)

theorem Active.clause_moved (a : Active Value) :
    (a.moved edge move more).clause = edge a.clause := by
  rcases a with - | - <;> rfl

theorem Active.caught?_moved (a : Active Value) : (a.moved edge move more).caught? = a.caught? := by
  rcases a with - | - <;> rfl

end Moving

/-- What is to be done is about these clauses and targets only. -/
def Resume.Within {Value : Type} (clauses : List Clause) (At : Offset → Prop) :
    Resume Value → Prop
  | .leave rest target => (∀ c ∈ rest, c ∈ clauses) ∧ At target
  | .throw rest _ => ∀ c ∈ rest, c ∈ clauses

/-- The handler belongs to one of these clauses, and what is to be done when it ends is
about these clauses and targets only. -/
def Active.Within {Value : Type} (clauses : List Clause) (At : Offset → Prop) :
    Active Value → Prop
  | .catching clause _ => clause ∈ clauses
  | .finishing clause resume => clause ∈ clauses ∧ resume.Within clauses At

theorem Active.Within.mem {Value : Type} {clauses : List Clause} {At : Offset → Prop}
    {a : Active Value} (h : a.Within clauses At) : a.clause ∈ clauses := by
  cases a with
  | catching => exact h
  | finishing => exact h.1

namespace Machine

/-! ### Frames that are alike -/

section Frames

variable (M : Machine) (count : Nat) (hidden : UInt16 → M.Value)

/-- Frames that agree on the stack, on the first `count` locals, and on all in the heap
that methods can see; the other locals of the second one hold what is hidden there. -/
structure Alike (f f' : Frame M.Value M.Heap) : Prop where
  stack : f'.stack = f.stack
  shown : ∀ slot : UInt16, slot.toNat < count → f'.locals slot = f.locals slot
  kept : ∀ slot : UInt16, count ≤ slot.toNat → f'.locals slot = hidden slot
  heap : M.same f.heap f'.heap

/-- The same comes of an instruction, and it leaves frames that are alike. -/
inductive AlikeOutcome :
    Outcome M.Value M.Heap M.Event → Outcome M.Value M.Heap M.Event → Prop where
  | goes {f f' : Frame M.Value M.Heap} (choice : Option Nat) (events : List M.Event) :
      Alike M count hidden f f' → AlikeOutcome (.goes choice f events) (.goes choice f' events)
  | throws {f f' : Frame M.Value M.Heap} (exception : M.Value) (events : List M.Event) :
      Alike M count hidden f f' →
        AlikeOutcome (.throws exception f events) (.throws exception f' events)
  | stuck : AlikeOutcome .stuck .stuck

/-- An instruction with nothing but the first `count` locals, and with nothing in the heap
that only helpers can see. -/
def KeepsTo (a : Act Unit) : Prop :=
  ∀ (hidden : UInt16 → M.Value) (f f' : Frame M.Value M.Heap), Alike M count hidden f f' →
    AlikeOutcome M count hidden (M.exec a f) (M.exec a f')

end Frames

variable {M : Machine} {count : Nat} {hidden : UInt16 → M.Value} {f f' : Frame M.Value M.Heap}

theorem Alike.withStack (h : Alike M count hidden f f') (stack : List M.Value) :
    Alike M count hidden { f with stack } { f' with stack } :=
  ⟨rfl, h.shown, h.kept, h.heap⟩

/-- Throwing a value does the same in frames that are alike. -/
theorem Alike.raised (h : Alike M count hidden f f') (v : M.Value) :
    (M.raised v f'.heap).1 = (M.raised v f.heap).1 ∧
      Alike M count hidden { f with heap := (M.raised v f.heap).2 }
        { f' with heap := (M.raised v f'.heap).2 } := by
  obtain ⟨hvalue, hheap⟩ := M.raised_same v h.heap
  exact ⟨hvalue.symm, h.stack, h.shown, h.kept, hheap⟩

/-! ### Ends of runs -/

/-- The run that goes on like this ends. -/
inductive Next.Ends (m : Method) : M.Next → M.Final → Prop where
  | done (f : M.Final) : Next.Ends m (.done f) f
  | go {s : M.State} {f : M.Final} : Machine.Ends m s f → Next.Ends m (.go s) f

theorem ends_iff {m : Method} {s : M.State} {f : M.Final} :
    Ends m s f ↔ (step m s).Ends m f := by
  constructor
  · rintro (hstep | ⟨hstep, hrest⟩)
    · rw [hstep]
      exact .done f
    · rw [hstep]
      exact .go hrest
  · intro h
    rcases hstep : step m s with s' | f' | -
    · rw [hstep] at h
      cases h with
      | go hrest => exact .go hstep hrest
    · rw [hstep] at h
      cases h with
      | done => exact .done hstep
    · rw [hstep] at h
      cases h

/-- A run ends in one way. -/
theorem Ends.unique {m : Method} {s : M.State} {f g : M.Final} (h : Ends m s f)
    (h' : Ends m s g) : f = g := by
  induction h with
  | done hstep =>
    rw [ends_iff, hstep] at h'
    cases h'
    rfl
  | go hstep _ ih =>
    rw [ends_iff, hstep] at h'
    cases h' with
    | go hrest => exact ih hrest

/-- A run that ends goes on to its end from whatever it comes to. -/
theorem Ends.after {m : Method} {s s' : M.State} {f : M.Final} (hreach : Reaches m s s')
    (h : Ends m s f) : Ends m s' f := by
  induction hreach with
  | refl => exact h
  | go hstep _ ih =>
    rw [ends_iff, hstep] at h
    cases h with
    | go hrest => exact ih hrest

end Machine

end CilProbe
