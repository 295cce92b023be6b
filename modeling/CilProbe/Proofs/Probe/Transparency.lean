/-
CilProbe/Proofs/Probe/Transparency.lean

A method with its probes does what the method does.  Whatever machine runs it, a run of
the instrumented method ends exactly if a run of the method does, in the same way and
with the same things observed on the way; before them the entry helper is called once,
with the token of the method, and behind them the exit helper once, with what came of
the run (`probe_transparent`).

The method stands inside of what it has become (`ExitPlan.passage`), so the runs go in
lockstep; what is shown here is that the new code and its clauses do what a passage
needs (`Enclosed.faithful`), wherever control can come to (`Ways`).
-/
import CilProbe.Proofs.Machine.Lockstep
import CilProbe.Proofs.Probe.Exit

namespace CilProbe

open Machine Check

/-! ### Where control can come to -/

/-- Positions of instructions that control does not come away from. -/
structure Ways (code : List (Instruction Offset)) (clauses : List Clause) (At : Offset → Prop) :
    Prop where
  start : At 0
  exists_at : ∀ o, At o → ∃ i ∈ code, i.offset = o
  handler : ∀ cl ∈ clauses, At cl.handlerOffset
  step : ∀ i ∈ code, At i.offset → ∀ t ∈ successors i, At t

/-- Control keeps to the positions that have a depth. -/
theorem ways_of_simulateStack {code : List (Instruction Offset)} {clauses : List Clause}
    {returnsValue : Bool} {callSites : CallSites} {report : StackReport}
    (hcont : Contiguous 0 code) (hcode : code ≠ [])
    (h : simulateStack code clauses returnsValue callSites = .ok report) :
    Ways code clauses fun o => ∃ d, (o, d) ∈ report.depths := by
  obtain ⟨hclosed, -, hexists, -⟩ := closed_of_simulateStack (nodup_offsets hcont) h
  constructor
  case start =>
    obtain ⟨i, code, rfl⟩ := List.exists_cons_of_ne_nil hcode
    have hstart := hclosed.start i rfl
    rw [offset_of_head? hcont rfl] at hstart
    exact ⟨0, hstart⟩
  case exists_at =>
    rintro o ⟨d, hd⟩
    exact hexists o d hd
  case handler => exact fun cl hcl => ⟨_, (hclosed.handler cl hcl).2⟩
  case step =>
    rintro i hi ⟨d, hd⟩ t ht
    obtain ⟨after, -, hnext⟩ := hclosed.step i (List.mem_toArray.mpr hi) d hd
    exact ⟨_, (hnext t ht).2⟩

/-! ### What the exit helper is called with -/

namespace ExitPlan

variable {Value : Type} (p : ExitPlan) (answerSlot : UInt16)

/-- What the exit helper is called with after a run, where the locals of the probes held
`hidden` during the run. -/
def arguments (hidden : UInt16 → Value) : Result Value → List Value
  | .returned value => (p.shown answerSlot).map (p.returning value hidden)
  | .threw exception => (p.shown answerSlot).map (p.keeping exception hidden)

variable {p answerSlot} {locals hidden : UInt16 → Value}

theorem map_returning (h : ∀ slot ∈ p.shown answerSlot, locals slot = hidden slot)
    (value : Option Value) :
    (p.shown answerSlot).map (p.returning value locals) =
      (p.shown answerSlot).map (p.returning value hidden) := by
  refine List.map_congr_left fun slot hslot => ?_
  unfold returning
  rcases p.slots.value with - | slot'
  · exact h slot hslot
  · rcases value with - | v
    · exact h slot hslot
    · simp only [Function.update_apply, h slot hslot]

theorem map_keeping (h : ∀ slot ∈ p.shown answerSlot, locals slot = hidden slot)
    (exception : Value) :
    (p.shown answerSlot).map (p.keeping exception locals) =
      (p.shown answerSlot).map (p.keeping exception hidden) := by
  refine List.map_congr_left fun slot hslot => ?_
  unfold keeping
  split
  · simp only [Function.update_apply, h slot hslot]
  · exact h slot hslot

end ExitPlan

/-! ### The method inside of what it has become -/

section Passage

variable {M : Machine} {body : MethodBody} {code : List (Instruction Offset)} {size : Offset}
  {method enter : Token} {answerSlot : UInt16} {p : ExitPlan} {r : ProbedMethod} {c : CodeParts}
  {returnsValue : Bool}

/-- The method inside of what it has become. -/
def ExitPlan.passage (p : ExitPlan) (body : MethodBody) (code : List (Instruction Offset))
    (r : ProbedMethod) (c : CodeParts) (returnsValue : Bool) (answerSlot : UInt16)
    (At : Offset → Prop) (count : Nat) (hidden : UInt16 → M.Value) (before : List M.Event) :
    Passage M where
  inner := ⟨code, body.clauses, returnsValue⟩
  outer := c.method body p r returnsValue
  edge := Clause.moved (r.edge (.ofNat c.innerEnd))
  move := r.move
  more := c.exitClauses p.exceptionType
  At
  count
  hidden
  before
  after result := [M.called p.exit (p.arguments answerSlot hidden result)]

namespace Enclosed

variable (h : Enclosed M body code size method enter answerSlot p r c returnsValue)
  {At : Offset → Prop} {count : Nat} (hidden : UInt16 → M.Value) (before : List M.Event)
include h

omit h in
/-- A run that ends from states side by side by calling the exit helper ends as it should. -/
theorem ended {s s' : M.State} {heap' : M.Heap}
    (hs : (p.passage body code r c returnsValue answerSlot At count hidden before).Level s s')
    (hslots : ∀ slot ∈ p.shown answerSlot, count ≤ slot.toNat)
    (hheap : M.same s'.frame.heap heap') (result : Result M.Value) {arguments : List M.Value}
    (harguments : (∀ slot ∈ p.shown answerSlot, s'.frame.locals slot = hidden slot) →
      arguments = p.arguments answerSlot hidden result) :
    (p.passage body code r c returnsValue answerSlot At count hidden before).Ended
      ⟨result, s.frame.heap, s.trace⟩ ⟨result, heap', s'.trace ++ [M.called p.exit arguments]⟩ where
  result := rfl
  heap := M.same_trans hs.frame.heap hheap
  trace := by
    rw [hs.trace, harguments fun slot hslot => hs.frame.kept slot (hslots slot hslot),
      List.append_assoc]
    rfl

/-- A return is one on both sides. -/
theorem follows_return {s s' : M.State} {i : Instruction Offset}
    (hslots : ∀ slot ∈ p.shown answerSlot, count ≤ slot.toNat)
    (hs : (p.passage body code r c returnsValue answerSlot At count hidden before).Beside s s')
    (hi : i ∈ code) (hpc : i.offset = s.pc) (hflow : i.opcode.info.flow = .ret) :
    (p.passage body code r c returnsValue answerSlot At count hidden before).Follows
      (perform ⟨code, body.clauses, returnsValue⟩ s i)
      (step (c.method body p r returnsValue) s') := by
  have hret := Opcode.eq_ret_of_flow hflow
  obtain ⟨k, hk⟩ := List.mem_iff_getElem?.mp hi
  have hpc' : s'.pc = r.move i.offset := by rw [hs.pc, hpc]; rfl
  have hdone : ∀ value : Option M.Value, value.isSome = returnsValue →
      (∀ v ∈ value, s.frame.stack.head? = some v) →
        (p.passage body code r c returnsValue answerSlot At count hidden before).Follows
          (.done ⟨.returned value, s.frame.heap, s.trace⟩)
          (step (c.method body p r returnsValue) s') := fun value hvalue hstack => by
    -- the image of a return ends the whole run, by way of the finally handler
    obtain ⟨heap', hheap, hends⟩ := h.ends_return hk hret hpc' hvalue
      (fun v hv => by rw [hs.frame.stack]; exact hstack v hv)
    exact .done (ended hidden before hs.toLevel hslots hheap _ fun hkept =>
      ExitPlan.map_returning hkept value) (ends_iff.mp hends)
  unfold perform
  rw [hflow]
  dsimp only
  rcases returnsValue with - | -
  · rw [if_neg Bool.false_ne_true]
    exact hdone none rfl (by simp)
  · rw [if_pos rfl]
    -- a return that has nothing to return goes nowhere, and neither does the store in its image
    rcases hstack : s.frame.stack with - | ⟨v, stack⟩
    · rw [h.step_return_nil hk hret hpc' rfl (hs.frame.stack.trans hstack)]
      exact .stuck
    · exact hdone (some v) rfl (by rw [hstack]; simp)

/-- An instruction that is no return has become one that does the same, with what comes
next in front of it. -/
theorem fetch_image (hshort : codeEnd 0 code ≤ Offset.last) (hways : Ways code body.clauses At)
    {k : Nat} {i : Instruction Offset} (hk : code[k]? = some i)
    (hflow : i.opcode.info.flow ≠ .ret) :
    ∃ j, (c.method body p r returnsValue).fetch (r.move i.offset) = some j ∧
      j.act = i.act.map r.move ∧ (At i.nextOffset → j.nextOffset = r.move i.nextOffset) := by
  have hr := h.relocated
  have hret : i.opcode ≠ Opcode.ret := by
    intro hret
    rw [hret, Opcode.info_of_info? Opcode.info?_ret] at hflow
    exact hflow rfl
  obtain ⟨j, rest, hj, hoffset, hacts⟩ := hr.image k i hk
  simp only [imageActs, if_neg hret] at hacts
  obtain ⟨hact, hnil⟩ := List.cons.inj hacts
  obtain rfl := List.map_eq_nil_iff.mp hnil
  have hmem : j ∈ c.all := c.mem_all_of_mem hj List.mem_cons_self
  refine ⟨j, ?_, hact, fun hnext => ?_⟩
  · rw [← hoffset]
    exact Method.fetch_of_mem (m := c.method body p r returnsValue) hr.contiguous hmem
  · obtain ⟨i', hi', hoffset'⟩ := hways.exists_at _ hnext
    have hnext' := next_of_offset_eq h.contiguous hshort hk hi' hoffset'
    rw [hr.nextOffset_image [] hj hnext', hoffset']

/-- The instrumented method does what the method does. -/
theorem faithful (hshort : codeEnd 0 code ≤ Offset.last)
    (hfilter : ∀ cl ∈ body.clauses, cl.isFilter = false) (hways : Ways code body.clauses At)
    (hkeeps : ∀ i ∈ code, KeepsTo M count i.word)
    (hslots : ∀ slot ∈ p.shown answerSlot, count ≤ slot.toNat) :
    (p.passage body code r c returnsValue answerSlot At count hidden before).Faithful := by
  have hr := h.relocated
  have hfetch : ∀ {o i}, (⟨code, body.clauses, returnsValue⟩ : Method).fetch o = some i →
      ∃ k, code[k]? = some i ∧ i.offset = o := fun hi => by
    obtain ⟨hmem, hoffset⟩ := Method.mem_of_fetch hi
    obtain ⟨k, hk⟩ := List.mem_iff_getElem?.mp hmem
    exact ⟨k, hk, hoffset⟩
  have himage : ∀ o, At o → ∃ k i, code[k]? = some i ∧ i.offset = o ∧
      Relocated.InImage c k (r.move o) := fun o ho => by
    obtain ⟨i, hi, rfl⟩ := hways.exists_at o ho
    obtain ⟨k, hk⟩ := List.mem_iff_getElem?.mp hi
    exact ⟨k, i, hk, rfl, hr.inImage_move hk⟩
  constructor
  -- where control comes there is an instruction, whose image control comes to
  case fetch =>
    intro o ho
    obtain ⟨i, hi, rfl⟩ := hways.exists_at o ho
    exact ⟨i, Method.fetch_of_mem (m := ⟨code, body.clauses, returnsValue⟩) h.contiguous hi,
      hkeeps i hi, hways.step i hi ho⟩
  case image =>
    intro o i ho hi hflow
    obtain ⟨k, hk, rfl⟩ := hfetch hi
    exact h.fetch_image hshort hways hk hflow
  case handler =>
    intro cl hcl
    have hat := hways.handler cl hcl
    obtain ⟨i, hi, hoffset⟩ := hways.exists_at _ hat
    refine ⟨hat, ?_⟩
    show r.edge (.ofNat c.innerEnd) cl.handlerOffset = r.move cl.handlerOffset
    rw [← hoffset, hr.edge_of_mem _ hi]
  case kind => exact fun cl => ⟨rfl, rfl⟩
  -- clauses see an image as they saw its instruction
  case inside =>
    intro cl hcl o ho
    obtain ⟨k, i, hk, rfl, hin⟩ := himage o ho
    exact hr.handlerContains_moved h.contiguous h.size_eq hcl (hfilter cl hcl) hk hin
  case covering =>
    intro o ho
    obtain ⟨k, i, hk, rfl, hin⟩ := himage o ho
    exact hr.covering_image h.contiguous h.size_eq hk hin
  case leaving =>
    intro o o' ho ho'
    obtain ⟨k, i, hk, rfl, hin⟩ := himage o ho
    obtain ⟨k', i', hk', rfl, hin'⟩ := himage o' ho'
    exact hr.leaving_image h.contiguous h.size_eq hk hk' hin hin'
  -- what ends the run of the method runs the finally handler before
  case returned =>
    intro s s' i hs hi hflow
    obtain ⟨hmem, hoffset⟩ := Method.mem_of_fetch hi
    exact h.follows_return hidden before hslots hs hmem hoffset hflow
  case unwound =>
    intro s s' exception hs
    obtain ⟨heap', hheap, hends⟩ := h.ends_unwind s' exception
    exact ⟨_, ended hidden before hs hslots hheap (.threw exception) fun hkept =>
      ExitPlan.map_keeping hkept exception, hends⟩

/-- After the entry probe, the method starts beside itself. -/
theorem beside_start (hways : Ways code body.clauses At)
    (hanswer : count ≤ answerSlot.toNat) (zeros : UInt16 → M.Value) {heap heap' : M.Heap}
    (hheap : M.same heap heap') (answer : M.Value) :
    (p.passage body code r c returnsValue answerSlot At count
        (Function.update zeros answerSlot answer) before).Beside (.start zeros heap)
      ⟨r.move 0, ⟨[], Function.update zeros answerSlot answer, heap'⟩, [], before⟩ where
  frame := by
    refine ⟨rfl, fun slot hslot => Function.update_of_ne ?_ _ _, fun _ _ => rfl, hheap⟩
    rintro rfl
    exact absurd hslot (Nat.not_lt.mpr hanswer)
  active := rfl
  within := by simp [State.start]
  trace := (List.append_nil before).symm
  comes := hways.start
  pc := rfl

end Enclosed

end Passage

/-! ### Instrumented methods -/

/-- What the exit helper is called with after a run: what was returned, where methods
return something, the exception that passed, where those are observed, and what the entry
helper answered.  What there is not is as its local started out. -/
def ProbeRequest.exitArguments {Value : Type} (request : ProbeRequest) (count : Nat)
    (zeros : UInt16 → Value) (answer : Value) : Result Value → List Value
  | .returned value =>
    ((Draft.slotsAfter count request.returnsValue).value.map fun slot =>
        value.getD (zeros slot)).toList ++
      [zeros (Draft.slotsAfter count request.returnsValue).exception, answer]
  | .threw exception =>
    ((Draft.slotsAfter count request.returnsValue).value.map zeros).toList ++
      [if request.policy.exception then exception
        else zeros (Draft.slotsAfter count request.returnsValue).exception, answer]

/-- The machine knows the helpers that the source, in this state, answers with, and the
class that all exceptions belong to. -/
structure Machine.HelpersRun {σ : Type} (M : Machine) (source : TokenSource (StateM σ)) (s : σ)
    (request : ProbeRequest) : Prop where
  enter : ∀ {enter s₁}, source.enter.run.run s = (.ok enter, s₁) → Helper M enter 1 true
  exit : ∀ {enter s₁ exit s₂}, source.enter.run.run s = (.ok enter, s₁) →
    (source.exit (if request.returnsValue then some request.signature.ret.unmodified
      else none)).run.run s₁ = (.ok exit, s₂) →
    Helper M exit (if request.returnsValue then 3 else 2) false
  caught : ∀ {enter s₁ exit s₂ type s₃}, source.enter.run.run s = (.ok enter, s₁) →
    (source.exit (if request.returnsValue then some request.signature.ret.unmodified
      else none)).run.run s₁ = (.ok exit, s₂) →
    source.exceptionType.run.run s₂ = (.ok type, s₃) →
    ∀ exception heap, M.catches type exception heap = true

/-- The end of a run with probes, beside that of the run without: the result is the same,
the heaps are the same to methods, and what was observed stands between two calls. -/
structure Machine.Observed {M : Machine} (first : M.Event) (last : Result M.Value → M.Event)
    (f f' : M.Final) : Prop where
  result : f'.result = f.result
  heap : M.same f.heap f'.heap
  trace : f'.trace = first :: (f.trace ++ [last f.result])

section Probe

variable {σ : Type} {source : TokenSource (StateM σ)} {s : σ} {request : ProbeRequest}
  {body : MethodBody} {bytes : List UInt8} {code : List (Instruction Offset)} {enter : Token}
  {answerSlot : UInt16} {p : ExitPlan} {r : ProbedMethod} {c : CodeParts} {M : Machine}

/-- Which locals the probes use, behind those of the method. -/
theorem Instrumented.slots
    (h : Instrumented source s request body bytes code enter answerSlot (some p) r c)
    {locals : Locals} (hlocals : Locals.parse request.locals = .ok locals) :
    p.slots = Draft.slotsAfter locals.count request.returnsValue ∧
      answerSlot = .ofNat (locals.count + Draft.slotCount request.returnsValue) ∧
      locals.count + Draft.slotCount request.returnsValue < Locals.slotLimit := by
  obtain ⟨locals', hlocals', hslots, hanswer, hlt⟩ := h.locals
  obtain rfl := Except.ok.inj (hlocals.symm.trans hlocals')
  have hexit : request.policy.exit = true := h.planned.symm
  rw [ProbeRequest.exitSlotsAfter, if_pos hexit] at hslots
  rw [ProbeRequest.exitSlotCount, if_pos hexit] at hanswer hlt
  exact ⟨Option.some.inj hslots, hanswer, hlt⟩

/-- The locals of the probes are behind those of the method, each at its own place. -/
theorem Draft.toNat_slot {count : Nat} {returnsValue : Bool}
    (hlt : count + Draft.slotCount returnsValue < Locals.slotLimit) {k : Nat}
    (hk : k ≤ Draft.slotCount returnsValue) : (UInt16.ofNat (count + k)).toNat = count + k := by
  unfold Locals.slotLimit at hlt
  exact UInt16.toNat_ofNat_of_lt' (by show _ < 65536; omega)

theorem ExitPlan.count_le_of_shown {count : Nat} {returnsValue : Bool}
    (hslots : p.slots = Draft.slotsAfter count returnsValue)
    (hlt : count + Draft.slotCount returnsValue < Locals.slotLimit) :
    ∀ slot ∈ p.shown (.ofNat (count + Draft.slotCount returnsValue)), count ≤ slot.toNat := by
  have hle : ∀ k ≤ Draft.slotCount returnsValue, count ≤ (UInt16.ofNat (count + k)).toNat :=
    fun k hk => by rw [Draft.toNat_slot hlt hk]; exact Nat.le_add_right _ _
  unfold ExitPlan.shown
  rw [hslots]
  rcases returnsValue with - | -
  · exact List.forall_mem_cons.mpr ⟨hle 0 (by decide), List.forall_mem_singleton.mpr
      (hle 1 (by decide))⟩
  · exact List.forall_mem_cons.mpr ⟨hle 0 (by decide), List.forall_mem_cons.mpr
      ⟨hle 1 (by decide), List.forall_mem_singleton.mpr (hle 2 (by decide))⟩⟩

/-- What the exit helper is called with, in terms of the request. -/
theorem ExitPlan.arguments_eq {count : Nat}
    (hslots : p.slots = Draft.slotsAfter count request.returnsValue)
    (hobserved : p.exceptionType.isSome = request.policy.exception) {Value : Type}
    (zeros : UInt16 → Value) (answer : Value) (result : Result Value) :
    let answerSlot : UInt16 := .ofNat (count + Draft.slotCount request.returnsValue)
    p.arguments answerSlot (Function.update zeros answerSlot answer) result =
      request.exitArguments count zeros answer result := by
  unfold ExitPlan.arguments ProbeRequest.exitArguments ExitPlan.shown ExitPlan.returning
    ExitPlan.keeping
  rw [hslots, hobserved]
  unfold Draft.slotsAfter
  -- the three locals are at different places, so none of them hides another
  rcases request.returnsValue with - | -
  · rcases result with value | exception
    · simp [Draft.slotCount]
    · rcases request.policy.exception with - | - <;> simp [Draft.slotCount]
  · rcases result with (- | value) | exception
    · simp [Draft.slotCount]
    · simp [Draft.slotCount]
    · rcases request.policy.exception with - | - <;> simp [Draft.slotCount]

/-- Apart from whether it returns a value, a method is what was read of its body. -/
theorem Method.Read.eq {m : Method} {data : List UInt8} (h : m.Read data) {body : MethodBody}
    {bytes : List UInt8} {code : List (Instruction Offset)}
    (hread : MethodBody.read data = .ok body) (hbytes : body.code data = .ok bytes)
    (hdecode : decode bytes = .ok code) : m = ⟨code, body.clauses, m.returnsValue⟩ := by
  obtain ⟨body', bytes', hread', hbytes', hdecode', hclauses⟩ := h
  obtain rfl := Except.ok.inj (hread.symm.trans hread')
  obtain rfl := Except.ok.inj (hbytes.symm.trans hbytes')
  rw [← Except.ok.inj (hdecode'.symm.trans hdecode), ← hclauses]

/-- A method in a machine that knows the helpers, with both of its probes. -/
theorem Instrumented.enclosed
    (h : Instrumented source s request body bytes code enter answerSlot (some p) r c)
    (hhelpers : HelpersRun M source s request)
    (hfree : ∀ i ∈ code, i.opcode = Opcode.ret → ∀ cl ∈ body.clauses,
      cl.tryContains i.offset = false) :
    Enclosed M body code (.ofNat bytes.length) request.method enter answerSlot p r c
      request.returnsValue := by
  obtain ⟨s₁, s₂, henter, hexit, htype, -⟩ := h.asked_exit
  have hvalue := (h.value_isSome p rfl).2
  -- the exit helper takes as many arguments as there are locals shown to it
  have hlength : (p.shown answerSlot).length = if request.returnsValue then 3 else 2 := by
    rw [← hvalue]
    unfold ExitPlan.shown
    rcases p.slots.value with - | slot <;> rfl
  exact {
    relocated := h.relocated
    contiguous := h.contiguous
    size_eq := h.size_eq
    unprotected := hfree
    value := hvalue
    enter := hhelpers.enter henter
    exit := by
      rw [hlength]
      exact hhelpers.exit henter hexit
    caught := by
      intro type htype' exception heap
      obtain ⟨s₃, htype⟩ := htype type htype'
      exact hhelpers.caught henter hexit htype exception heap }

/-- Instrumenting a method with both probes does not change what it does.  Say that the
walk over the stack accepts a body, whatever depth its header declares, that no return in it
stands in a protected range, and that its instructions keep to the locals that it declares;
and that a machine knows the helpers, which neither throw nor change anything that methods
can see.  Then a run of
the instrumented method ends exactly if a run of the method does: with the same result,
the same heap, and with the same things observed on the way, behind one call of the entry
helper with the token of the method and in front of one call of the exit helper with what
came of the run.  Nor do runs that do not end come to anything else. -/
theorem probe_transparent {limit : Nat} {s' : σ} {callSites : CallSites} {report : StackReport}
    {locals : Locals} {old new : Method}
    (h : (probe limit request source).run.run s = (.ok (.probed r), s'))
    (hexit : request.policy.exit = true)
    (hold : old.Read request.body) (hnew : new.Read r.body)
    (hwalked : simulateStack old.code old.clauses request.returnsValue callSites = .ok report)
    (hlocals : Locals.parse request.locals = .ok locals)
    (hreturns : old.returnsValue = request.returnsValue ∧
      new.returnsValue = request.returnsValue)
    (hfree : ∀ i ∈ old.code, i.opcode = Opcode.ret → ∀ cl ∈ old.clauses,
      cl.tryContains i.offset = false)
    (hkeeps : ∀ i ∈ old.code, KeepsTo M locals.count i.word)
    (hhelpers : HelpersRun M source s request) :
    ∃ enter s₁ exit s₂, source.enter.run.run s = (.ok enter, s₁) ∧
      (source.exit (if request.returnsValue then some request.signature.ret.unmodified
        else none)).run.run s₁ = (.ok exit, s₂) ∧
      ∀ (zeros : UInt16 → M.Value) (heap : M.Heap), ∃ answer heap',
        let token := M.int32 request.method.value.toInt32
        let first := M.called enter [token]
        let last := fun result =>
          M.called exit (request.exitArguments locals.count zeros answer result)
        M.effect ⟨Opcode.call, .token enter⟩ ⟨[token], zeros, heap⟩ =
          .goes none ⟨[answer], zeros, heap'⟩ [first] ∧
        (∀ f, Ends old (.start zeros heap) f →
          ∃ f', Ends new (.start zeros heap) f' ∧ Observed first last f f') ∧
        (∀ f', Ends new (.start zeros heap) f' →
          ∃ f, Ends old (.start zeros heap) f ∧ Observed first last f f') ∧
        ∀ t, Reaches old (.start zeros heap) t → ∃ t', Reaches new (.start zeros heap) t' ∧
          t'.trace = first :: t.trace ∧ M.same t.frame.heap t'.frame.heap := by
  obtain ⟨body, bytes, code, enter, answerSlot, plan, c, hi⟩ := instrumented_of_probe h
  obtain ⟨p, rfl⟩ := Option.isSome_iff_exists.mp (hi.planned.trans hexit)
  -- the methods are what was read and what was written
  obtain ⟨hread, hbytes, -⟩ := ProbeRequest.read_eq_ok.mp hi.read
  have hr := hi.relocated
  obtain ⟨new', hread', hbytes', -, -, -, hclauses⟩ := hr.read
  have hold' : old = ⟨code, body.clauses, request.returnsValue⟩ := by
    rw [hold.eq hread hbytes hi.decoded, hreturns.1]
  have hnew' : new = c.method body p r request.returnsValue := by
    rw [hnew.eq hread' hbytes' hr.decode_all, hreturns.2, hclauses]
    rfl
  subst hold' hnew'
  -- what was walked over is what was instrumented, so control keeps to where it has a depth
  have henclosed := hi.enclosed hhelpers hfree
  have hways := ways_of_simulateStack hi.contiguous hi.code_ne_nil hwalked
  obtain ⟨hslots, rfl, hlt⟩ := hi.slots hlocals
  have hcount := ExitPlan.count_le_of_shown hslots hlt
  obtain ⟨s₁, s₂, henter, hexit', -, hobserved⟩ := hi.asked_exit
  refine ⟨enter, s₁, p.exit, s₂, henter, hexit', fun zeros heap => ?_⟩
  -- the entry probe runs up to the first image; from there both methods go side by side
  obtain ⟨answer, heap', hheap, heffect, hreach⟩ :=
    henclosed.reaches_start hi.code_ne_nil zeros heap
  set answerSlot : UInt16 := .ofNat (locals.count + Draft.slotCount request.returnsValue)
  set first := M.called enter [M.int32 request.method.value.toInt32]
  have hfaithful := henclosed.faithful (Function.update zeros answerSlot answer) [first]
    (hi.codeEnd_eq ▸ hi.short) (ProbeRequest.checkShape_eq_ok hi.shape).1 hways hkeeps hcount
  have hbeside := henclosed.beside_start [first] hways
    (hcount answerSlot (by simp [ExitPlan.shown])) zeros hheap answer
  have hobserved' : ∀ {f f' : M.Final}, (p.passage body code r c request.returnsValue answerSlot
      (fun o => ∃ d, (o, d) ∈ report.depths) locals.count (Function.update zeros answerSlot answer)
        [first]).Ended f f' →
      Observed first (fun result => M.called p.exit
        (request.exitArguments locals.count zeros answer result)) f f' := fun {f f'} hended =>
    ⟨hended.result, hended.heap, by
      rw [hended.trace, ← ExitPlan.arguments_eq hslots hobserved zeros answer f.result]
      rfl⟩
  refine ⟨answer, heap', heffect, fun f hends => ?_, fun f' hends => ?_, fun t ht => ?_⟩
  · obtain ⟨f', hended, hends'⟩ := hfaithful.ends_outer hbeside hends
    exact ⟨f', .of_reaches hreach hends', hobserved' hended⟩
  · obtain ⟨f, hended, hends'⟩ := hfaithful.ends_inner hbeside (hends.after hreach)
    exact ⟨f, hends', hobserved' hended⟩
  · obtain ⟨t', hbeside', hreach'⟩ := hfaithful.reaches_outer hbeside ht
    exact ⟨t', hreach.trans hreach', hbeside'.trace, hbeside'.frame.heap⟩

end Probe

/-! ### A run with its probes -/

/-- A machine that knows the helpers of `fixedSource`.  The heap counts the calls of the
entry helper, which methods do not see; the count is what it answers with. -/
def countingMachine : Machine where
  Value := Int32
  Heap := Int32
  Event := Token × List Int32
  same _ _ := True
  int32 := id
  effect a f :=
    match a.operand, f.stack with
    | .token ⟨0x0A000001⟩, v :: stack =>
      .goes none { f with stack := f.heap :: stack, heap := f.heap + 1 } [(⟨0x0A000001⟩, [v])]
    | .token ⟨0x0A000002⟩, u :: v :: w :: stack =>
      .goes none { f with stack } [(⟨0x0A000002⟩, [w, v, u])]
    | _, _ => .stuck
  called token arguments := (token, arguments)
  raised v heap := (v, heap)
  catches _ _ _ := true
  same_trans _ _ := trivial
  raised_same _ _ := ⟨rfl, trivial⟩
  catches_same _ _ _ := rfl

theorem helpersRun_countingMachine : HelpersRun countingMachine fixedSource () constantRequest where
  enter := by
    intro enter s₁ h args stack locals heap hargs
    cases h
    obtain ⟨v, rfl⟩ := List.length_eq_one_iff.mp hargs
    exact ⟨heap, _, rfl, trivial⟩
  exit := by
    intro enter s₁ exit s₂ _ h args stack locals heap hargs
    cases h
    obtain ⟨u, v, w, rfl⟩ := List.length_eq_three.mp hargs
    exact ⟨u, heap, rfl, trivial⟩
  caught _ _ _ _ _ := rfl

/-- The method that returns zero. -/
def constantMethod : Method := ⟨constantCode, [], true⟩

/-- Its instructions have nothing to do with locals. -/
theorem keepsTo_constantCode : ∀ i ∈ constantCode, KeepsTo countingMachine 0 i.word := by
  refine List.forall_mem_cons.mpr ⟨fun hidden f f' hf => ?_, List.forall_mem_singleton.mpr
    fun hidden f f' hf => ?_⟩
  · exact .goes none [] ⟨congrArg (List.cons _) hf.stack, hf.shown, hf.kept, hf.heap⟩
  · exact .stuck

theorem ends_constantMethod (zeros : UInt16 → Int32) (heap : Int32) :
    Ends (M := countingMachine) constantMethod (.start zeros heap)
      ⟨.returned (some (0 : Int32)), heap, []⟩ :=
  .go rfl (.done rfl)

theorem probe_transparent_constantRequest :
    (probe 32 constantRequest fixedSource).run.run () = (.ok (.probed probedConstant), ()) ∧
      constantMethod.Read constantRequest.body ∧
      simulateStack constantMethod.code [] true helperCallSites = .ok ⟨[(0, 0), (1, 1)], 1⟩ ∧
      HelpersRun countingMachine fixedSource () constantRequest ∧
      ∃ new : Method, new.Read probedConstant.body ∧ new.returnsValue = true ∧
        ∃ f, Ends (M := countingMachine) new (.start (fun _ => (0 : Int32)) (7 : Int32)) f ∧
          f.result = .returned (some (0 : Int32)) ∧
          f.trace = [(⟨0x0A000001⟩, [0x06000001]), (⟨0x0A000002⟩, [0, 0, 7])] := by
  have h := probe_constantRequest
  obtain ⟨body, bytes, code, enter, answerSlot, plan, c, hi⟩ := instrumented_of_probe h
  obtain ⟨body', hread, hcode, -⟩ := hi.relocated.read
  have hold : constantMethod.Read constantRequest.body :=
    ⟨_, [0x16, 0x2A], rfl, rfl, rfl, rfl⟩
  have hnew : Method.Read ⟨c.all, body'.clauses, true⟩ probedConstant.body :=
    ⟨body', _, hread, hcode, hi.relocated.decode_all, rfl⟩
  refine ⟨h, hold, simulateStack_constantCode, helpersRun_countingMachine, _, hnew, rfl, ?_⟩
  obtain ⟨enter, s₁, exit, s₂, henter, hexit, hruns⟩ :=
    probe_transparent h rfl hold hnew simulateStack_constantCode rfl ⟨rfl, rfl⟩
      (by simp [constantMethod]) keepsTo_constantCode helpersRun_countingMachine
  cases henter
  cases hexit
  obtain ⟨answer, heap', heffect, hforth, -, -⟩ := hruns (fun _ => (0 : Int32)) (7 : Int32)
  cases heffect
  obtain ⟨f, hends, hobserved⟩ := hforth _ (ends_constantMethod _ _)
  exact ⟨f, hends, hobserved.result, hobserved.trace⟩

end CilProbe
