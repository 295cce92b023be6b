/-
CilProbe/Proofs/Probe/Exit.lean

What the probes do in a run.  The entry probe calls its helper and keeps the answer.  The
exit probe runs on every way out: a return leaves to the epilogue, runs the finally
handler on its way and then returns what it was to return (`ends_return`), and an
exception that no clause of the method stops is kept, where exceptions are observed, runs
the finally handler and goes on (`ends_unwind`).  Either way the exit helper is called
once, with the locals of the probe.
-/
import CilProbe.Proofs.Machine.Alike
import CilProbe.Proofs.Machine.Runs
import CilProbe.Proofs.Probe.Covering

namespace CilProbe

open Machine

/-! ### Methods with probes -/

/-- The method with its probes. -/
def CodeParts.method (c : CodeParts) (body : MethodBody) (p : ExitPlan) (r : ProbedMethod)
    (returnsValue : Bool) : Method :=
  ⟨c.all, c.clauses body (some p) r, returnsValue⟩

/-- The locals that the exit helper is called with. -/
def ExitPlan.shown (p : ExitPlan) (answerSlot : UInt16) : List UInt16 :=
  p.slots.value.toList ++ [p.slots.exception, answerSlot]

/-- The locals after an exception has passed: it is kept where exceptions are observed. -/
def ExitPlan.keeping {Value : Type} (p : ExitPlan) (exception : Value) (locals : UInt16 → Value) :
    UInt16 → Value :=
  if p.exceptionType.isSome then Function.update locals p.slots.exception exception else locals

/-- The locals after a value has been returned. -/
def ExitPlan.returning {Value : Type} (p : ExitPlan) (value : Option Value)
    (locals : UInt16 → Value) : UInt16 → Value :=
  match p.slots.value, value with
  | some slot, some v => Function.update locals slot v
  | _, _ => locals

theorem ExitPlan.finallyActs_eq {τ : Type} (p : ExitPlan) (answerSlot : UInt16) :
    (p.finallyActs answerSlot : List (Act τ)) =
      ((p.shown answerSlot).map fun slot => (Instruction.loadLocal slot).act) ++
        [⟨Opcode.call, .token p.exit⟩, ⟨Opcode.endfinally, .none⟩] := by
  unfold finallyActs shown
  rcases p.slots.value with - | slot <;> rfl

theorem ExitPlan.epilogueActs_eq {τ : Type} (p : ExitPlan) :
    (p.epilogueActs : List (Act τ)) =
      (p.slots.value.toList.map fun slot => (Instruction.loadLocal slot).act) ++
        [⟨Opcode.ret, .none⟩] := by
  unfold epilogueActs
  rcases p.slots.value with - | slot <;> rfl

/-- A method with both probes, in a machine that knows the helpers. -/
structure Enclosed (M : Machine) (body : MethodBody) (code : List (Instruction Offset))
    (size : Offset) (method enter : Token) (answerSlot : UInt16) (p : ExitPlan) (r : ProbedMethod)
    (c : CodeParts) (returnsValue : Bool) : Prop where
  relocated : Relocated body code size method enter answerSlot (some p) r c
  contiguous : Contiguous 0 code
  size_eq : size.toNat = codeEnd 0 code
  unprotected : ∀ i ∈ code, i.opcode = Opcode.ret → ∀ cl ∈ body.clauses,
    cl.tryContains i.offset = false
  value : p.slots.value.isSome = returnsValue
  enter : Helper M enter 1 true
  exit : Helper M p.exit (p.shown answerSlot).length false
  caught : ∀ type ∈ p.exceptionType, ∀ exception heap, M.catches type exception heap = true

variable {M : Machine} {body : MethodBody} {code : List (Instruction Offset)} {size : Offset}
  {method enter : Token} {answerSlot : UInt16} {p : ExitPlan} {r : ProbedMethod} {c : CodeParts}
  {returnsValue : Bool}

/-! ### Instructions that end a part -/

section Performing

variable {m : Method} {s : M.State} {j : Instruction Offset}

theorem perform_leave {target : Offset} (hj : j.act = ⟨Opcode.leave, .target target⟩) :
    perform m s j = leave m s target := by
  have hflow := flow_of_info? (congrArg Act.opcode hj) Opcode.info?_leave
  have hoperand : j.operand = .target target := congrArg Act.operand hj
  unfold perform
  rw [hflow, hoperand]
  rfl

theorem perform_ret (hj : j.act = ⟨Opcode.ret, .none⟩) :
    perform m s j =
      if m.returnsValue then
        match s.frame.stack with
        | v :: _ => .done ⟨.returned (some v), s.frame.heap, s.trace⟩
        | [] => .stuck
      else .done ⟨.returned none, s.frame.heap, s.trace⟩ := by
  have hflow := flow_of_info? (congrArg Act.opcode hj) Opcode.info?_ret
  unfold perform
  rewrite [hflow]
  rfl

theorem perform_rethrow (hj : j.act = ⟨Opcode.rethrow, .none⟩) {exception : M.Value}
    (hcaught : s.active.findSome? Active.caught? = some exception) :
    perform m s j = raise m s exception := by
  have hflow := flow_of_info? (congrArg Act.opcode hj) Opcode.info?_rethrow
  have hop : j.opcode = Opcode.rethrow :=
    Opcode.eq_of_longForm_eq (congrArg Act.opcode hj) (by decide +kernel)
  unfold perform
  rw [hflow]
  simp only [hop, if_true, hcaught]

theorem perform_endfinally (hj : j.act = ⟨Opcode.endfinally, .none⟩) {clause : Clause}
    {next : Resume M.Value} {active : List (Active M.Value)}
    (hactive : s.active = .finishing clause next :: active) :
    perform m s j = resume { s with active } next := by
  have hflow := flow_of_info? (congrArg Act.opcode hj) Opcode.info?_endfinally
  unfold perform
  rw [hflow]
  simp only [hactive]

end Performing

namespace Enclosed

variable (h : Enclosed M body code size method enter answerSlot p r c returnsValue)
include h

/-! ### Parts -/

/-- A run passes a part of the new code up to its last instruction. -/
theorem reaches_last {before part after is : List (Instruction Offset)} {j : Instruction Offset}
    (hall : c.all = before ++ (part ++ after)) (hpart : part = is ++ [j])
    {f f' : Frame M.Value M.Heap} {events : List M.Event} (hdoes : Does M is f f' events)
    (active : List (Active M.Value)) (trace : List M.Event) :
    Reaches (c.method body p r returnsValue) ⟨.ofNat (codeEnd 0 before), f, active, trace⟩
      ⟨j.offset, f', active, trace ++ events⟩ := by
  have hcont := h.relocated.contiguous
  have hsplit : c.all = before ++ (is ++ j :: after) := by
    rw [hall, hpart, List.append_assoc]
    rfl
  have hbehind := (contiguous_append.mp (hsplit ▸ hcont)).2
  refine reaches_straight (m := c.method body p r returnsValue) hsplit hcont h.relocated.bounded
    hdoes ?_ active trace
  rcases hfirst : is ++ j :: after with - | ⟨first, rest⟩
  · simp at hfirst
  · rw [hfirst] at hbehind
    exact congrArg some (offset_of_head? hbehind rfl)

/-- The last instruction of a part is the next one. -/
theorem step_last {before part after is : List (Instruction Offset)} {j : Instruction Offset}
    (hall : c.all = before ++ (part ++ after)) (hpart : part = is ++ [j])
    {s : M.State} (hpc : s.pc = j.offset) :
    step (c.method body p r returnsValue) s = perform (c.method body p r returnsValue) s j := by
  refine step_eq_perform h.relocated.contiguous ?_ hpc
  show j ∈ c.all
  rw [hall, hpart]
  simp

/-- The finally handler calls the exit helper with the locals of the probe, and then goes
on with what it was entered for. -/
theorem ends_finally (locals : UInt16 → M.Value) (heap : M.Heap) (clause : Clause)
    (next : Resume M.Value) (active : List (Active M.Value)) (trace : List M.Event) :
    ∃ heap' pc, M.same heap heap' ∧ ∀ f,
      (resume ⟨pc, ⟨[], locals, heap'⟩, active,
        trace ++ [M.called p.exit ((p.shown answerSlot).map locals)]⟩ next).Ends
          (c.method body p r returnsValue) f →
      Ends (c.method body p r returnsValue)
        ⟨.ofNat c.finallyStart, ⟨[], locals, heap⟩, .finishing clause next :: active, trace⟩ f := by
  have hfinally := h.relocated.finally_
  rw [Option.elim_some, p.finallyActs_eq] at hfinally
  obtain ⟨loads, closing, hpart, hloads, hclosing⟩ := List.map_eq_append_iff.mp hfinally
  obtain ⟨call, rest, rfl, hcall, hrest⟩ := List.map_eq_cons_iff.mp hclosing
  obtain ⟨j, rest, rfl, hj, hnil⟩ := List.map_eq_cons_iff.mp hrest
  obtain rfl := List.map_eq_nil_iff.mp hnil
  obtain ⟨answer, heap', heffect, hsame⟩ := h.exit ((p.shown answerSlot).map locals) [] locals heap
    (List.length_map _)
  have hexec := (exec_call hcall _).trans heffect
  -- the helper takes all that was loaded and leaves nothing, so the handler ends as it began
  have hdoes : Does M (loads ++ [call]) ⟨[], locals, heap⟩ ⟨[], locals, heap'⟩
      ([] ++ [M.called p.exit ((p.shown answerSlot).map locals)]) :=
    (does_loads hloads [] locals heap).append (.cons (goesOn_call hcall) hexec (.nil _))
  obtain ⟨hall, hstart⟩ := c.split_finally
  have hpart' : c.finally_ = (loads ++ [call]) ++ [j] := by rw [hpart, List.append_assoc]; rfl
  refine ⟨heap', j.offset, hsame, fun f hf => ?_⟩
  have hreach := h.reaches_last hall hpart' hdoes (.finishing clause next :: active) trace
  rw [hstart] at hreach
  refine .of_reaches hreach (ends_iff.mpr ?_)
  rw [h.step_last hall hpart' rfl, perform_endfinally hj rfl]
  exact hf

/-- The epilogue returns the value that was kept, if there is one. -/
theorem ends_epilogue (locals : UInt16 → M.Value) (heap : M.Heap) (active : List (Active M.Value))
    (trace : List M.Event) :
    Ends (c.method body p r returnsValue)
      ⟨.ofNat c.epilogueStart, ⟨[], locals, heap⟩, active, trace⟩
      ⟨.returned (p.slots.value.map locals), heap, trace⟩ := by
  have hepilogue := h.relocated.epilogue
  rw [Option.elim_some, p.epilogueActs_eq] at hepilogue
  obtain ⟨loads, closing, hpart, hloads, hclosing⟩ := List.map_eq_append_iff.mp hepilogue
  obtain ⟨j, rest, rfl, hj, hnil⟩ := List.map_eq_cons_iff.mp hclosing
  obtain rfl := List.map_eq_nil_iff.mp hnil
  have hdoes := does_loads hloads [] locals heap
  obtain ⟨hall, hstart⟩ := c.split_epilogue
  rw [← List.append_nil c.epilogue] at hall
  have hreach := h.reaches_last hall hpart hdoes active trace
  simp only [hstart, List.append_nil] at hreach
  refine .of_reaches hreach (.done ?_)
  have hvalue := h.value
  rw [h.step_last hall hpart rfl, perform_ret hj, CodeParts.method]
  -- there is a local for the value exactly if the method returns one
  rcases hslot : p.slots.value with - | slot
  · rw [hslot] at hvalue
    obtain rfl : false = returnsValue := hvalue
    rfl
  · rw [hslot] at hvalue
    obtain rfl : true = returnsValue := hvalue
    rfl

/-! ### Ways out -/

/-- The finally handler runs when an exception passes. -/
theorem ends_unwind_finally (s : M.State) (exception : M.Value) :
    ∃ heap', M.same s.frame.heap heap' ∧
      (unwind s exception [c.exitFinally]).Ends (c.method body p r returnsValue)
        ⟨.threw exception, heap',
          s.trace ++ [M.called p.exit ((p.shown answerSlot).map s.frame.locals)]⟩ := by
  obtain ⟨heap', pc, hsame, hends⟩ := h.ends_finally s.frame.locals s.frame.heap c.exitFinally
    (.throw [] exception)
    (s.active.filter fun a => a.clause.handlerContains (.ofNat c.finallyStart)) s.trace
  exact ⟨heap', hsame, .go (hends _ (.done _))⟩

/-- The catch handler keeps the exception and throws it again, for the finally handler. -/
theorem ends_catch {type : Token} (htype : p.exceptionType = some type) (clause : Clause)
    (exception : M.Value) (locals : UInt16 → M.Value) (heap : M.Heap)
    (active : List (Active M.Value)) (trace : List M.Event) :
    ∃ heap', M.same heap heap' ∧
      Ends (c.method body p r returnsValue)
        ⟨.ofNat c.innerEnd, ⟨[exception], locals, heap⟩, .catching clause exception :: active, trace⟩
        ⟨.threw exception, heap', trace ++ [M.called p.exit ((p.shown answerSlot).map
          (Function.update locals p.slots.exception exception))]⟩ := by
  have hr := h.relocated
  have hcatch := hr.catch_
  rw [Option.elim_some, ExitPlan.catchActs, htype, if_pos Option.isSome_some] at hcatch
  obtain ⟨store, rest, hpart, hstore, hrest⟩ := List.map_eq_cons_iff.mp hcatch
  obtain ⟨j, rest, rfl, hj, hnil⟩ := List.map_eq_cons_iff.mp hrest
  obtain rfl := List.map_eq_nil_iff.mp hnil
  have hpart : c.catch_ = [store] ++ [j] := hpart
  obtain ⟨hall, hstart⟩ := c.split_catch
  have hdoes : Does M [store] ⟨[exception], locals, heap⟩
      ⟨[], Function.update locals p.slots.exception exception, heap⟩ [] :=
    .cons (goesOn_storeLocal hstore) (exec_storeLocal hstore exception) (.nil _)
  have hreach := h.reaches_last hall hpart hdoes (.catching clause exception :: active) trace
  simp only [hstart, List.append_nil] at hreach
  -- where the exception is thrown again, only the finally handler is left
  have hjmem : j ∈ c.catch_ := by simp [hpart]
  obtain ⟨-, -, hcont, -⟩ := c.contiguous_parts hr.contiguous
  have hcover := hr.covering_catch h.contiguous h.size_eq (start_le_offset hcont hjmem)
    (offset_lt_codeEnd hcont hjmem)
  obtain ⟨heap', hsame, hends⟩ := h.ends_unwind_finally
    ⟨j.offset, ⟨[], Function.update locals p.slots.exception exception, heap⟩,
      .catching clause exception :: active, trace⟩ exception
  refine ⟨heap', hsame, .of_reaches hreach (ends_iff.mpr ?_)⟩
  rw [h.step_last hall hpart rfl, perform_rethrow hj rfl]
  show (unwind _ exception ((c.clauses body (some p) r).filter (·.tryContains j.offset))).Ends _ _
  rw [hcover]
  exact hends

/-- An exception that no clause of the method stops is kept, where exceptions are observed,
runs the finally handler and goes on. -/
theorem ends_unwind (s : M.State) (exception : M.Value) :
    ∃ heap', M.same s.frame.heap heap' ∧
      (unwind s exception (c.exitClauses p.exceptionType)).Ends (c.method body p r returnsValue)
        ⟨.threw exception, heap', s.trace ++ [M.called p.exit ((p.shown answerSlot).map
          (p.keeping exception s.frame.locals))]⟩ := by
  rw [c.exitClauses_eq]
  unfold ExitPlan.keeping
  rcases htype : p.exceptionType with - | type
  · exact h.ends_unwind_finally s exception
  · have hcaught : M.catches ⟨type.value⟩ exception s.frame.heap = true :=
      h.caught type (by rw [htype]; rfl) exception s.frame.heap
    -- the clause of the catch handler catches whatever passes
    have hentered : unwind s exception ([c.exitCatch type] ++ [c.exitFinally]) =
        .go (s.handle (c.exitCatch type) [exception]
          (.catching (c.exitCatch type) exception)) := by
      show (if (c.exitCatch type).isFinallyLike then _ else
        if (c.exitCatch type).classToken?.any _ then _ else _) = _
      rw [if_neg (show ¬(c.exitCatch type).isFinallyLike from Bool.false_ne_true)]
      exact if_pos hcaught
    rw [Option.map_some, Option.toList_some, hentered]
    obtain ⟨heap', hsame, hends⟩ := h.ends_catch htype (c.exitCatch type) exception s.frame.locals
      s.frame.heap (s.active.filter fun a => a.clause.handlerContains (.ofNat c.innerEnd)) s.trace
    exact ⟨heap', hsame, .go hends⟩

omit h in
/-- What is returned is kept and can be loaded again. -/
theorem map_returning {value : Option M.Value} (hvalue : value.isSome = p.slots.value.isSome)
    (locals : UInt16 → M.Value) : p.slots.value.map (p.returning value locals) = value := by
  unfold ExitPlan.returning
  rcases hslot : p.slots.value with - | slot
  · rw [hslot, Option.isSome_none, Option.isSome_eq_false_iff, Option.isNone_iff_eq_none] at hvalue
    exact hvalue.symm
  · rw [hslot] at hvalue
    obtain ⟨v, rfl⟩ := Option.isSome_iff_exists.mp hvalue
    exact congrArg some (Function.update_self ..)

omit h in
/-- Before it leaves, a return keeps the value on the stack, if there is to be one. -/
theorem does_returning {value : Option M.Value} (hvalue : value.isSome = p.slots.value.isSome)
    {stores : List (Instruction Offset)}
    (hstores : stores.map Instruction.act =
      (p.slots.value.map fun slot => (Instruction.storeLocal slot).act).toList)
    {stack : List M.Value} (hstack : ∀ v ∈ value, stack.head? = some v)
    (locals : UInt16 → M.Value) (heap : M.Heap) :
    ∃ stack', Does M stores ⟨stack, locals, heap⟩ ⟨stack', p.returning value locals, heap⟩ [] := by
  unfold ExitPlan.returning
  rcases hslot : p.slots.value with - | slot
  · rw [hslot] at hstores
    obtain rfl := List.map_eq_nil_iff.mp hstores
    exact ⟨stack, .nil _⟩
  · rw [hslot] at hvalue hstores
    obtain ⟨v, rfl⟩ := Option.isSome_iff_exists.mp hvalue
    obtain ⟨rest, rfl⟩ := List.head?_eq_some_iff.mp (hstack v rfl)
    obtain ⟨store, others, rfl, hstore, hnil⟩ := List.map_eq_cons_iff.mp hstores
    obtain rfl := List.map_eq_nil_iff.mp hnil
    exact ⟨rest, .cons (goesOn_storeLocal hstore) (exec_storeLocal hstore v) (.nil _)⟩

/-- A return keeps what it returns, leaves to the epilogue by way of the finally handler,
and returns it there. -/
theorem ends_return {k : Nat} {i : Instruction Offset} (hi : code[k]? = some i)
    (hret : i.opcode = Opcode.ret) {s : M.State} (hpc : s.pc = r.move i.offset)
    {value : Option M.Value} (hvalue : value.isSome = returnsValue)
    (hstack : ∀ v ∈ value, s.frame.stack.head? = some v) :
    ∃ heap', M.same s.frame.heap heap' ∧
      Ends (c.method body p r returnsValue) s
        ⟨.returned value, heap', s.trace ++ [M.called p.exit ((p.shown answerSlot).map
          (p.returning value s.frame.locals))]⟩ := by
  have hr := h.relocated
  obtain ⟨pc, ⟨stack, locals, heap⟩, active, trace⟩ := s
  obtain rfl : pc = r.move i.offset := hpc
  rw [← h.value] at hvalue
  obtain ⟨j₀, rest, himage, -, hacts⟩ := hr.image k i hi
  simp only [imageActs, if_pos hret] at hacts
  obtain ⟨stores, closing, hpart, hstores, hclosing⟩ := List.map_eq_append_iff.mp hacts
  obtain ⟨j, others, rfl, hj, hnil⟩ := List.map_eq_cons_iff.mp hclosing
  obtain rfl := List.map_eq_nil_iff.mp hnil
  obtain ⟨stack', hdoes⟩ := does_returning hvalue hstores hstack locals heap
  -- the stores are passed, and what is left of the image is to leave
  have hall := c.all_eq_image himage
  have hstart : r.move i.offset = .ofNat (codeEnd 0 (c.entry ++ (c.images.take k).flatten)) := by
    rw [c.codeEnd_before, ← hr.toNat_move hi, UInt32.ofNat_toNat]
  have hreach := h.reaches_last hall hpart hdoes active trace
  rw [← hstart, List.append_nil] at hreach
  -- no clause of the method protects a return, so only the finally handler is on the way
  have hfree := h.unprotected i (List.mem_of_getElem? hi) hret
  have hleaving := hr.leaving_return h.contiguous h.size_eq hi
    (hr.inImage_of_mem himage (j := j) (by simp [hpart])) hfree
  obtain ⟨heap', pc, hsame, hends⟩ := h.ends_finally (p.returning value locals) heap c.exitFinally
    (.leave [] (.ofNat c.epilogueStart))
    (active.filter fun a => a.clause.handlerContains (.ofNat c.finallyStart)) trace
  refine ⟨heap', hsame, .of_reaches hreach (ends_iff.mpr ?_)⟩
  rw [h.step_last hall hpart rfl, perform_leave hj]
  show (leaveVia _ _ ((c.clauses body (some p) r).filter _)).Ends _ _
  rw [hleaving]
  refine .go (hends _ (.go ?_))
  have hepilogue := h.ends_epilogue (p.returning value locals) heap'
    ((active.filter fun a => a.clause.handlerContains (.ofNat c.finallyStart)).filter fun a =>
      a.clause.handlerContains (.ofNat c.epilogueStart))
    (trace ++ [M.called p.exit ((p.shown answerSlot).map (p.returning value locals))])
  rw [map_returning hvalue] at hepilogue
  exact hepilogue

/-- A return that has nothing to return goes nowhere. -/
theorem step_return_nil {k : Nat} {i : Instruction Offset} (hi : code[k]? = some i)
    (hret : i.opcode = Opcode.ret) {s : M.State} (hpc : s.pc = r.move i.offset)
    (hvalue : returnsValue = true) (hstack : s.frame.stack = []) :
    step (c.method body p r returnsValue) s = .stuck := by
  have hr := h.relocated
  obtain ⟨slot, hslot⟩ := Option.isSome_iff_exists.mp (h.value.trans hvalue)
  obtain ⟨j, rest, himage, hoffset, hacts⟩ := hr.image k i hi
  simp only [imageActs, if_pos hret, ExitPlan.returnActs, hslot] at hacts
  obtain ⟨hstore, -⟩ := List.cons.inj hacts
  have hmem : j ∈ c.all := c.mem_all_of_mem himage List.mem_cons_self
  obtain ⟨pc, ⟨stack, locals, heap⟩, active, trace⟩ := s
  obtain rfl : stack = [] := hstack
  rw [step_eq_perform hr.contiguous hmem (hpc.trans hoffset.symm)]
  unfold perform
  -- the first instruction of the return would keep the value, and finds none
  have hexec : M.exec j.word ⟨[], locals, heap⟩ = .stuck := exec_storeLocal_nil hstore
  rcases goesOn_storeLocal hstore with hflow | hflow
  · simp only [hflow, Machine.pass, hexec]
  · simp only [hflow, Machine.pass, hexec]

/-! ### The way in -/

/-- The entry probe calls its helper with the token of the method and keeps the answer. -/
theorem reaches_start (hcode : code ≠ []) (zeros : UInt16 → M.Value) (heap : M.Heap) :
    ∃ answer heap', M.same heap heap' ∧
      M.effect ⟨Opcode.call, .token enter⟩ ⟨[M.int32 method.value.toInt32], zeros, heap⟩ =
        .goes none ⟨[answer], zeros, heap'⟩ [M.called enter [M.int32 method.value.toInt32]] ∧
      Reaches (c.method body p r returnsValue) (.start zeros heap)
        ⟨r.move 0, ⟨[], Function.update zeros answerSlot answer, heap'⟩, [],
          [M.called enter [M.int32 method.value.toInt32]]⟩ := by
  have hr := h.relocated
  obtain ⟨i, code, rfl⟩ := List.exists_cons_of_ne_nil hcode
  have hfirst : i.offset = 0 := offset_of_head? h.contiguous rfl
  obtain ⟨j, rest, himage, hoffset, -⟩ := hr.image 0 i rfl
  obtain ⟨answer, heap', heffect, hsame⟩ :=
    h.enter [M.int32 method.value.toInt32] [] zeros heap rfl
  refine ⟨answer, heap', hsame, heffect, ?_⟩
  obtain ⟨load, rest₁, hentry, hload, hrest₁⟩ := List.map_eq_cons_iff.mp hr.entry
  obtain ⟨call, rest₂, rfl, hcall, hrest₂⟩ := List.map_eq_cons_iff.mp hrest₁
  obtain ⟨store, rest₃, rfl, hstore, hnil⟩ := List.map_eq_cons_iff.mp hrest₂
  obtain rfl := List.map_eq_nil_iff.mp hnil
  have hdoes : Does M c.entry ⟨[], zeros, heap⟩
      ⟨[], Function.update zeros answerSlot answer, heap'⟩
      ([] ++ ([M.called enter [M.int32 method.value.toInt32]] ++ ([] ++ []))) := by
    rw [hentry]
    exact .cons (goesOn_ldc hload) (exec_ldc hload)
      (.cons (goesOn_call hcall) ((exec_call hcall _).trans heffect)
        (.cons (goesOn_storeLocal hstore) (exec_storeLocal hstore answer) (.nil _)))
  -- the entry probe is the code in front of the first image
  have hsplit :
      c.all = [] ++ (c.entry ++ j :: (rest ++ ((c.images.drop 1).flatten ++ c.tail))) := by
    rw [c.all_eq_image himage]
    simp
  have hhead : (c.entry ++ j :: (rest ++ ((c.images.drop 1).flatten ++ c.tail))).head?.map
      Instruction.offset = some 0 := by
    have hcont := hr.contiguous
    rw [hsplit, List.nil_append, hentry] at hcont
    rw [hentry]
    exact congrArg some (offset_of_head? hcont rfl)
  have hreach := reaches_straight (m := c.method body p r returnsValue) hsplit hr.contiguous
    hr.bounded hdoes hhead [] []
  rw [hoffset, hfirst] at hreach
  exact hreach

end Enclosed

end CilProbe
