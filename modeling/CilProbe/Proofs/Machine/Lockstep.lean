/-
CilProbe/Proofs/Machine/Lockstep.lean

A method that stands inside another one.  The outer method has the instructions and
the clauses of the inner one somewhere, and behind these clauses more of its own.  As
long as the inner method neither returns nor lets an exception out, runs of both go in
lockstep (`follows_step`); so one ends exactly if the other does, if only the outer
method comes to an end of its own from where the inner one is left (`ends_outer`,
`ends_inner`).

The relation between the states is `Beside`; `Level` is the part of it that is not
about where control is, which is what holds while a handler is looked for.
-/
import CilProbe.Proofs.Check.Effects
import CilProbe.Proofs.Machine.Alike

namespace CilProbe

open Check

namespace Machine

/-- A method inside another one, and what goes with its runs. -/
structure Passage (M : Machine) where
  /-- The method. -/
  inner : Method
  /-- The one that it is inside of. -/
  outer : Method
  /-- What its clauses have become. -/
  edge : Clause → Clause
  /-- Where its instructions have gone. -/
  move : Offset → Offset
  /-- The clauses behind its own. -/
  more : List Clause
  /-- The positions that control can come to. -/
  At : Offset → Prop
  /-- How many locals it declares. -/
  count : Nat
  /-- What the others hold. -/
  hidden : UInt16 → M.Value
  /-- What was observed before it started. -/
  before : List M.Event
  /-- What is observed after it has ended. -/
  after : Result M.Value → List M.Event

namespace Passage

variable {M : Machine} (w : Passage M)

/-! ### Side by side -/

/-- States side by side, but for where control is. -/
structure Level (s s' : M.State) : Prop where
  frame : Alike M w.count w.hidden s.frame s'.frame
  active : s'.active = s.active.map (Active.moved w.edge w.move w.more)
  within : ∀ a ∈ s.active, a.Within w.inner.clauses w.At
  trace : s'.trace = w.before ++ s.trace

/-- States side by side. -/
structure Beside (s s' : M.State) : Prop extends w.Level s s' where
  comes : w.At s.pc
  pc : s'.pc = w.move s.pc

/-- Ends of runs that went side by side. -/
structure Ended (f f' : M.Final) : Prop where
  result : f'.result = f.result
  heap : M.same f.heap f'.heap
  trace : f'.trace = w.before ++ (f.trace ++ w.after f.result)

/-- What comes next on both sides: states side by side, or nothing here and an end of the
whole run there. -/
inductive Follows : M.Next → M.Next → Prop where
  | go {s s' : M.State} : w.Beside s s' → Follows (.go s) (.go s')
  | done {f f' : M.Final} {next : M.Next} :
      w.Ended f f' → next.Ends w.outer f' → Follows (.done f) next
  | stuck : Follows .stuck .stuck

/-- The outer method does what the inner one does. -/
structure Faithful : Prop where
  fetch : ∀ o, w.At o → ∃ i, w.inner.fetch o = some i ∧ KeepsTo M w.count i.word ∧
    ∀ t ∈ successors i, w.At t
  image : ∀ o i, w.At o → w.inner.fetch o = some i → i.opcode.info.flow ≠ .ret →
    ∃ j, w.outer.fetch (w.move o) = some j ∧ j.act = i.act.map w.move ∧
      (w.At i.nextOffset → j.nextOffset = w.move i.nextOffset)
  handler : ∀ cl ∈ w.inner.clauses, w.At cl.handlerOffset ∧
    (w.edge cl).handlerOffset = w.move cl.handlerOffset
  kind : ∀ cl, (w.edge cl).flags = cl.flags ∧ (w.edge cl).classOrFilter = cl.classOrFilter
  inside : ∀ cl ∈ w.inner.clauses, ∀ o, w.At o →
    (w.edge cl).handlerContains (w.move o) = cl.handlerContains o
  covering : ∀ o, w.At o → w.outer.clauses.filter (·.tryContains (w.move o)) =
    (w.inner.clauses.filter (·.tryContains o)).map w.edge ++ w.more
  leaving : ∀ o o', w.At o → w.At o' →
    (w.outer.clauses.filter fun cl =>
        cl.flags.finally_ && cl.tryContains (w.move o) && !cl.tryContains (w.move o')) =
      (w.inner.clauses.filter fun cl =>
        cl.flags.finally_ && cl.tryContains o && !cl.tryContains o').map w.edge
  returned : ∀ s s' i, w.Beside s s' → w.inner.fetch s.pc = some i → i.opcode.info.flow = .ret →
    w.Follows (perform w.inner s i) (step w.outer s')
  unwound : ∀ s s' exception, w.Level s s' → ∃ f',
    w.Ended ⟨.threw exception, s.frame.heap, s.trace⟩ f' ∧
      (unwind s' exception w.more).Ends w.outer f'

variable {w} {s s' : M.State}

theorem Level.update (hs : w.Level s s') {f f' : Frame M.Value M.Heap}
    (hf : Alike M w.count w.hidden f f') (events : List M.Event) :
    w.Level { s with frame := f, trace := s.trace ++ events }
      { s' with frame := f', trace := s'.trace ++ events } :=
  ⟨hf, hs.active, hs.within, by rw [hs.trace, List.append_assoc]⟩

theorem Level.withFrame (hs : w.Level s s') {f f' : Frame M.Value M.Heap}
    (hf : Alike M w.count w.hidden f f') :
    w.Level { s with frame := f } { s' with frame := f' } :=
  ⟨hf, hs.active, hs.within, hs.trace⟩

/-- It does not matter where control is. -/
theorem Level.jump (hs : w.Level s s') (pc pc' : Offset) :
    w.Level { s with pc } { s' with pc := pc' } :=
  ⟨hs.frame, hs.active, hs.within, hs.trace⟩

/-- The exception that was caught last is the same. -/
theorem Level.caught? (hs : w.Level s s') :
    s'.active.findSome? Active.caught? = s.active.findSome? Active.caught? := by
  rw [hs.active, List.findSome?_map]
  congr 1
  exact funext fun a => a.caught?_moved w.edge w.move w.more

namespace Faithful

variable (h : w.Faithful)
include h

/-! ### Handlers -/

theorem isFinallyLike_edge (cl : Clause) : (w.edge cl).isFinallyLike = cl.isFinallyLike := by
  unfold Clause.isFinallyLike
  rw [(h.kind cl).1]

theorem classToken?_edge (cl : Clause) : (w.edge cl).classToken? = cl.classToken? := by
  unfold Clause.classToken?
  rw [(h.kind cl).1, (h.kind cl).2]

/-- The handlers that a position is part of are the same. -/
theorem active_filter (hs : w.Level s s') {o : Offset} (ho : w.At o) :
    (s'.active.filter fun a => a.clause.handlerContains (w.move o)) =
      (s.active.filter fun a => a.clause.handlerContains o).map
        (Active.moved w.edge w.move w.more) := by
  rw [hs.active, List.filter_map]
  refine congrArg _ (List.filter_congr fun a ha => ?_)
  rw [Function.comp_apply, a.clause_moved]
  exact h.inside a.clause (hs.within a ha).mem o ho

/-- Both sides enter a handler. -/
theorem beside_handle (hs : w.Level s s') {cl : Clause} (hcl : cl ∈ w.inner.clauses)
    (stack : List M.Value) {a : Active M.Value} (ha : a.Within w.inner.clauses w.At) :
    w.Beside (s.handle cl stack a)
      (s'.handle (w.edge cl) stack (a.moved w.edge w.move w.more)) where
  frame := hs.frame.withStack stack
  active := by
    obtain ⟨hat, hoffset⟩ := h.handler cl hcl
    show _ :: s'.active.filter _ = List.map _ (a :: s.active.filter _)
    rw [hoffset, h.active_filter hs hat, List.map_cons]
  within := List.forall_mem_cons.mpr ⟨ha, fun a' ha' => hs.within a' (List.mem_of_mem_filter ha')⟩
  trace := hs.trace
  comes := (h.handler cl hcl).1
  pc := (h.handler cl hcl).2

/-- Looking for a handler goes the same way; where there is none, the exception leaves the
inner method for the clauses behind its own. -/
theorem follows_unwind (hs : w.Level s s') (exception : M.Value) {rest : List Clause}
    (hrest : ∀ cl ∈ rest, cl ∈ w.inner.clauses) :
    w.Follows (unwind s exception rest) (unwind s' exception (rest.map w.edge ++ w.more)) := by
  induction rest with
  | nil =>
    obtain ⟨f', hended, hends⟩ := h.unwound s s' exception hs
    exact .done hended hends
  | cons cl rest ih =>
    obtain ⟨hcl, hrest⟩ := List.forall_mem_cons.mp hrest
    rw [List.map_cons, List.cons_append]
    unfold unwind
    rw [h.isFinallyLike_edge, h.classToken?_edge]
    by_cases hfinally : cl.isFinallyLike = true
    · rw [if_pos hfinally, if_pos hfinally]
      exact .go (h.beside_handle hs hcl [] (a := .finishing cl (.throw rest exception))
        ⟨hcl, hrest⟩)
    · rw [if_neg hfinally, if_neg hfinally]
      -- whether a clause catches depends on nothing that only helpers can see
      have hcatches : (cl.classToken?.any fun type => M.catches type exception s'.frame.heap) =
          cl.classToken?.any fun type => M.catches type exception s.frame.heap :=
        congrArg (fun catches => cl.classToken?.any catches)
          (funext fun type => (M.catches_same type exception hs.frame.heap).symm)
      rw [hcatches]
      split
      · exact .go (h.beside_handle hs hcl [exception] (a := .catching cl exception) hcl)
      · exact ih hrest

/-- Leaving by way of some finally handlers goes the same way. -/
theorem follows_leaveVia (hs : w.Level s s') {target : Offset} (ht : w.At target)
    {rest : List Clause} (hrest : ∀ cl ∈ rest, cl ∈ w.inner.clauses) :
    w.Follows (leaveVia s target rest) (leaveVia s' (w.move target) (rest.map w.edge)) := by
  -- no induction here: the handlers that are still to run are kept for when this one ends
  rcases rest with - | ⟨cl, rest⟩
  · exact .go ⟨⟨hs.frame.withStack [], h.active_filter hs ht,
      fun a ha => hs.within a (List.mem_of_mem_filter ha), hs.trace⟩, ht, rfl⟩
  · obtain ⟨hcl, hrest⟩ := List.forall_mem_cons.mp hrest
    exact .go (h.beside_handle hs hcl [] (a := .finishing cl (.leave rest target))
      ⟨hcl, hrest, ht⟩)

theorem follows_resume (hs : w.Level s s') {next : Resume M.Value}
    (hnext : next.Within w.inner.clauses w.At) :
    w.Follows (resume s next) (resume s' (next.moved w.edge w.move w.more)) := by
  cases next with
  | leave rest target => exact h.follows_leaveVia hs hnext.2 hnext.1
  | throw rest exception => exact h.follows_unwind hs exception hnext

/-! ### Steps -/

theorem follows_raise (hs : w.Level s s') (hat : w.At s.pc) (hpc : s'.pc = w.move s.pc)
    (exception : M.Value) :
    w.Follows (raise w.inner s exception) (raise w.outer s' exception) := by
  unfold raise
  rw [hpc, h.covering s.pc hat]
  exact h.follows_unwind hs exception fun cl hcl => List.mem_of_mem_filter hcl

theorem follows_leave (hs : w.Level s s') (hat : w.At s.pc) (hpc : s'.pc = w.move s.pc)
    {target : Offset} (ht : w.At target) :
    w.Follows (leave w.inner s target) (leave w.outer s' (w.move target)) := by
  unfold leave
  rw [hpc, h.leaving s.pc target hat ht]
  exact h.follows_leaveVia hs ht fun cl hcl => List.mem_of_mem_filter hcl

/-- An instruction that keeps to the locals of the method does the same on both sides. -/
theorem follows_pass (hs : w.Beside s s') {i j : Instruction Offset} (targets : List Offset)
    (hkeeps : KeepsTo M w.count i.word) (hact : j.act = i.act.map w.move)
    (hnext : j.nextOffset = w.move i.nextOffset) (hat : w.At i.nextOffset)
    (htargets : ∀ t ∈ targets, w.At t) :
    w.Follows (pass w.inner s i targets) (pass w.outer s' j (targets.map w.move)) := by
  have hword : j.word = i.word := by
    unfold Instruction.word
    rewrite [hact, Act.map_map]
    rfl
  -- the same comes of the word on both sides, with the same number of a target
  have halike := hkeeps w.hidden s.frame s'.frame hs.frame
  unfold pass
  rw [hword]
  generalize M.exec i.word s.frame = out at halike ⊢
  generalize M.exec i.word s'.frame = out' at halike ⊢
  rcases halike with ⟨choice, events, hf⟩ | ⟨exception, events, hf⟩ | -
  · refine .go ⟨(hs.toLevel.update hf events).jump _ _, ?_, ?_⟩
    · show w.At ((choice.bind fun n => targets[n]?).getD i.nextOffset)
      rcases hchoice : choice.bind fun n => targets[n]? with - | t
      · exact hat
      · obtain ⟨n, -, hn⟩ := Option.bind_eq_some_iff.mp hchoice
        exact htargets t (List.mem_of_getElem? hn)
    · show (choice.bind fun n => (targets.map w.move)[n]?).getD j.nextOffset =
        w.move ((choice.bind fun n => targets[n]?).getD i.nextOffset)
      rw [hnext]
      rcases choice with - | n
      · rfl
      · simp only [Option.bind_some, List.getElem?_map]
        rcases targets[n]? with - | t <;> rfl
  · exact h.follows_raise (hs.toLevel.update hf events) hs.comes hs.pc exception
  · exact .stuck

/-- Throwing and rethrowing do the same on both sides. -/
theorem follows_throws (hs : w.Beside s s') {i j : Instruction Offset}
    (hflow : i.opcode.info.flow = .throws) (hact : j.act = i.act.map w.move) :
    w.Follows (perform w.inner s i) (perform w.outer s' j) := by
  have hop : j.opcode = Opcode.rethrow ↔ i.opcode = Opcode.rethrow :=
    opcode_eq_iff (congrArg Act.opcode hact) _ (by decide +kernel)
  unfold perform
  rw [flow_of_act hact, hflow]
  dsimp only
  by_cases hrethrow : i.opcode = Opcode.rethrow
  · simp only [if_pos hrethrow, if_pos (hop.mpr hrethrow), hs.toLevel.caught?]
    rcases s.active.findSome? Active.caught? with - | exception
    · exact .stuck
    · exact h.follows_raise hs.toLevel hs.comes hs.pc exception
  · simp only [if_neg hrethrow, if_neg (mt hop.mp hrethrow), hs.frame.stack]
    rcases s.frame.stack with - | ⟨v, stack⟩
    · exact .stuck
    · obtain ⟨hvalue, hframe⟩ := hs.frame.raised v
      simp only [hvalue]
      -- the stack is as it was, the heap as raising the exception left it
      have hframe : Alike M w.count w.hidden
          ⟨v :: stack, s.frame.locals, (M.raised v s.frame.heap).2⟩
          ⟨v :: stack, s'.frame.locals, (M.raised v s'.frame.heap).2⟩ :=
        ⟨rfl, hframe.shown, hframe.kept, hframe.heap⟩
      exact h.follows_raise (hs.toLevel.withFrame hframe) hs.comes hs.pc _

/-- The end of a handler is one on both sides, and what is to be done then is the same. -/
theorem follows_endFinally (hs : w.Beside s s') {i j : Instruction Offset}
    (hflow : i.opcode.info.flow = .endFinally) (hact : j.act = i.act.map w.move) :
    w.Follows (perform w.inner s i) (perform w.outer s' j) := by
  have hactive := hs.active
  have hwithin := hs.within
  unfold perform
  rw [flow_of_act hact, hflow]
  dsimp only
  rcases hcases : s.active with - | ⟨⟨cl, exception⟩ | ⟨cl, next⟩, active⟩
  · rw [hcases] at hactive
    simp only [hactive, List.map_nil]
    exact .stuck
  · rw [hcases] at hactive
    simp only [hactive, List.map_cons, Active.moved]
    exact .stuck
  · rw [hcases] at hactive hwithin
    obtain ⟨ha, hrest⟩ := List.forall_mem_cons.mp hwithin
    simp only [hactive, List.map_cons, Active.moved]
    have hlevel : w.Level { s with active }
        { s' with active := active.map (Active.moved w.edge w.move w.more) } :=
      ⟨hs.frame, rfl, hrest, hs.trace⟩
    exact h.follows_resume hlevel ha.2

/-- Instructions other than returns do the same on both sides. -/
theorem follows_perform (hs : w.Beside s s') {i j : Instruction Offset}
    (hkeeps : KeepsTo M w.count i.word) (hsuccessors : ∀ t ∈ successors i, w.At t)
    (hflow : i.opcode.info.flow ≠ .ret) (hact : j.act = i.act.map w.move)
    (hnext : w.At i.nextOffset → j.nextOffset = w.move i.nextOffset) :
    w.Follows (perform w.inner s i) (perform w.outer s' j) := by
  -- these two read more of the state than its frame
  by_cases hthrows : i.opcode.info.flow = .throws
  · exact h.follows_throws hs hthrows hact
  by_cases hend : i.opcode.info.flow = .endFinally
  · exact h.follows_endFinally hs hend hact
  have htargets : j.operand.targets = i.operand.targets.map w.move := by
    rw [show j.operand = i.operand.map w.move from congrArg Act.operand hact, Operand.targets_map]
  unfold perform
  unfold successors at hsuccessors
  rw [flow_of_act hact, htargets]
  rcases hcase : i.opcode.info.flow <;> rw [hcase] at hsuccessors <;> dsimp only at hsuccessors
  case sequential | call | modifier =>
    have hat := hsuccessors _ List.mem_cons_self
    exact h.follows_pass hs [] hkeeps hact (hnext hat) hat (by simp)
  case conditionalBranch | switch =>
    obtain ⟨hat, hall⟩ := List.forall_mem_cons.mp hsuccessors
    exact h.follows_pass hs _ hkeeps hact (hnext hat) hat hall
  case unconditionalBranch =>
    rcases hlist : i.operand.targets with - | ⟨t, ts⟩
    · exact .stuck
    · have hat := hsuccessors t (by rw [hlist]; exact List.mem_cons_self)
      exact .go ⟨hs.toLevel.jump _ _, hat, rfl⟩
  case leave =>
    rcases hlist : i.operand.targets with - | ⟨t, ts⟩
    · exact .stuck
    · have hat := hsuccessors t (by rw [hlist]; exact List.mem_cons_self)
      exact h.follows_leave hs.toLevel hs.comes hs.pc hat
  case ret => exact absurd hcase hflow
  case throws => exact absurd hcase hthrows
  case endFinally => exact absurd hcase hend
  case endFilter | jump => exact .stuck

/-- A step on one side is a step on the other, until the inner method comes to an end. -/
theorem follows_step (hs : w.Beside s s') : w.Follows (step w.inner s) (step w.outer s') := by
  obtain ⟨i, hi, hkeeps, hsuccessors⟩ := h.fetch s.pc hs.comes
  have hstep : step w.inner s = perform w.inner s i := by
    unfold step
    rw [hi]
  rw [hstep]
  by_cases hflow : i.opcode.info.flow = .ret
  · exact h.returned s s' i hs hi hflow
  · obtain ⟨j, hj, hact, hnext⟩ := h.image s.pc i hs.comes hi hflow
    have hstep' : step w.outer s' = perform w.outer s' j := by
      unfold step
      rw [hs.pc, hj]
    rw [hstep']
    exact h.follows_perform hs hkeeps hsuccessors hflow hact hnext

/-- If the inner method goes on, so does the outer one. -/
theorem step_outer_of_go (hs : w.Beside s s') {t : M.State} (hstep : step w.inner s = .go t) :
    ∃ t', w.Beside t t' ∧ step w.outer s' = .go t' := by
  have hfollows := h.follows_step hs
  rw [hstep] at hfollows
  cases hnext : step w.outer s' <;> rw [hnext] at hfollows <;> cases hfollows
  case go.go t' ht => exact ⟨t', ht, rfl⟩

/-- If the inner method is done, the outer one comes to an end from there. -/
theorem ends_outer_of_done (hs : w.Beside s s') {f : M.Final} (hstep : step w.inner s = .done f) :
    ∃ f', w.Ended f f' ∧ Ends w.outer s' f' := by
  have hfollows := h.follows_step hs
  rw [hstep] at hfollows
  cases hfollows with
  | done hended hends => exact ⟨_, hended, ends_iff.mpr hends⟩

/-- If the outer method goes on, the inner one either does so too or is done. -/
theorem step_inner_of_go (hs : w.Beside s s') {t' : M.State} (hstep : step w.outer s' = .go t') :
    (∃ t, w.Beside t t' ∧ step w.inner s = .go t) ∨
      ∃ f f', w.Ended f f' ∧ step w.inner s = .done f ∧ Ends w.outer t' f' := by
  have hfollows := h.follows_step hs
  rw [hstep] at hfollows
  cases hnext : step w.inner s <;> rw [hnext] at hfollows <;> cases hfollows
  case go.go t ht => exact .inl ⟨t, ht, rfl⟩
  case done.done f f' hended hends =>
    cases hends with
    | go hends => exact .inr ⟨f, f', hended, rfl, hends⟩

/-- If the outer method is done, so is the inner one. -/
theorem step_inner_of_done (hs : w.Beside s s') {f' : M.Final}
    (hstep : step w.outer s' = .done f') : ∃ f, w.Ended f f' ∧ step w.inner s = .done f := by
  have hfollows := h.follows_step hs
  rw [hstep] at hfollows
  cases hnext : step w.inner s <;> rw [hnext] at hfollows <;> cases hfollows
  case done.done f f'' hended hends =>
    cases hends
    exact ⟨f, hended, rfl⟩

/-! ### Runs -/

/-- What the inner method comes to, the outer one comes to as well. -/
theorem reaches_outer {t : M.State} (hs : w.Beside s s') (hreach : Reaches w.inner s t) :
    ∃ t', w.Beside t t' ∧ Reaches w.outer s' t' := by
  induction hreach generalizing s' with
  | refl => exact ⟨s', hs, .refl s'⟩
  | go hstep _ ih =>
    obtain ⟨s₁', hs₁, hstep'⟩ := h.step_outer_of_go hs hstep
    obtain ⟨t', ht, hreach'⟩ := ih hs₁
    exact ⟨t', ht, .go hstep' hreach'⟩

/-- If the inner method ends, so does the outer one, as it should. -/
theorem ends_outer {f : M.Final} (hs : w.Beside s s') (hends : Ends w.inner s f) :
    ∃ f', w.Ended f f' ∧ Ends w.outer s' f' := by
  induction hends generalizing s' with
  | done hstep => exact h.ends_outer_of_done hs hstep
  | go hstep _ ih =>
    obtain ⟨s₁', hs₁, hstep'⟩ := h.step_outer_of_go hs hstep
    obtain ⟨f', hended, hends'⟩ := ih hs₁
    exact ⟨f', hended, .go hstep' hends'⟩

/-- If the outer method ends, it has come to that by way of an end of the inner one. -/
theorem ends_inner {f' : M.Final} (hs : w.Beside s s') (hends : Ends w.outer s' f') :
    ∃ f, w.Ended f f' ∧ Ends w.inner s f := by
  induction hends generalizing s with
  | done hstep =>
    obtain ⟨f, hended, hstep'⟩ := h.step_inner_of_done hs hstep
    exact ⟨f, hended, .done hstep'⟩
  | go hstep hrest ih =>
    obtain ⟨s₁, hs₁, hstep'⟩ | ⟨f, f'', hended, hdone, hends⟩ := h.step_inner_of_go hs hstep
    · obtain ⟨f, hended, hends'⟩ := ih hs₁
      exact ⟨f, hended, .go hstep' hends'⟩
    · -- from where the inner method is done, the outer one ends in one way only
      obtain rfl := hends.unique hrest
      exact ⟨f, hended, .done hdone⟩

end Faithful

end Passage

end Machine

end CilProbe
