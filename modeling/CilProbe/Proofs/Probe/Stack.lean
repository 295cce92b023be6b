/-
CilProbe/Proofs/Probe/Stack.lean

Instrumenting keeps stack depths.  The code of an instrumented method comes in
stretches: the entry probe, the image of each instruction, and the parts of the tail.
Entered with the depths that the method had there, all of them are sound, so the check
of the stack accepts the new code and finds nothing but these depths.  Conversely the
depths it finds, brought back to the method, are closed; so they are all there.
-/
import CilProbe.Proofs.Check.Body
import CilProbe.Proofs.Check.Stretches
import CilProbe.Proofs.Probe.Structure

namespace CilProbe

open Check

variable {body : MethodBody} {code : List (Instruction Offset)} {size : Offset}
  {method enter : Token} {answerSlot : UInt16} {plan : Option ExitPlan} {r : ProbedMethod}
  {c : CodeParts} {returnsValue : Bool} {callSites : CallSites} {report : StackReport}

/-! ### What the injected code does to the stack -/

/-- An instruction that says this goes on to the next one and has a known effect. -/
def Act.Straight (callSites : CallSites) (returnsValue : Bool) (a : Act Offset)
    (e : StackEffect) : Prop :=
  ∀ i : Instruction Offset, i.act = a → Check.Straight callSites returnsValue i e

theorem forall₂_straight {is : List (Instruction Offset)} {acts : List (Act Offset)}
    {effects : List StackEffect}
    (h : List.Forall₂ (Act.Straight callSites returnsValue) acts effects)
    (his : is.map Instruction.act = acts) :
    List.Forall₂ (Check.Straight callSites returnsValue) is effects := by
  subst his
  exact (List.forall₂_map_left_iff.mp h).imp fun i e h => h i rfl

theorem straight_entryActs (henter : callSites enter = .ok HelperRef.enterSignature) :
    List.Forall₂ (Act.Straight callSites returnsValue) (entryActs method enter answerSlot)
      [⟨0, 1⟩, ⟨1, 1⟩, ⟨1, 0⟩] :=
  .cons (fun _ => straight_ldc) (.cons (fun _ h => straight_enter h henter)
    (.cons (fun _ => straight_storeLocal) .nil))

/-- The signature of the exit helper is known; it takes a value exactly if the method
returns one. -/
def ExitKnown (callSites : CallSites) (returnsValue : Bool) (exit : Token) : Prop :=
  ∃ value : Option TypeSig, (∀ t ∈ value, t.isSentinel = false) ∧ value.isSome = returnsValue ∧
    callSites exit = .ok (HelperRef.exitSignature value)

theorem straight_callExit {exit : Token} (hexit : ExitKnown callSites returnsValue exit) :
    Act.Straight callSites returnsValue ⟨Opcode.call, .token exit⟩
      ⟨if returnsValue then 3 else 2, 0⟩ := by
  obtain ⟨value, hvalue, rfl, hsite⟩ := hexit
  exact fun i hi => straight_exit hi hvalue hsite

/-- An instruction with a code that takes and puts nothing can be passed. -/
theorem passes_of_idle {g : Ground} {i : Instruction Offset} {op : Opcode} {info : OpcodeInfo}
    (hi : i.act.opcode = op) (hinfo : op.info? = some info) (hpops : info.pops = .slots 0)
    (hpushes : info.pushes = .slots 0) : Passes g i 0 0 := by
  have hop : i.act.opcode.info = info := by rw [hi, Opcode.info_of_info? hinfo]
  rw [← hop] at hpops hpushes
  exact ⟨.inl rfl, ⟨⟨0, 0⟩, effect_of_slots hpops hpushes, UInt16.le_refl _, by decide⟩,
    fun _ => rfl⟩

/-- A return leaves nothing behind. -/
theorem passes_ret {g : Ground} {i : Instruction Offset} (hi : i.opcode = Opcode.ret)
    (hinside : ∀ c ∈ g.clauses, c.tryOffset ≠ i.offset) :
    Passes g i (if g.returnsValue then 1 else 0) 0 :=
  ⟨.inr hinside, ⟨_, stackEffect_ret hi, UInt16.le_refl _, by split <;> decide⟩, fun _ => rfl⟩

/-- A return is passed only with what is returned on the stack. -/
theorem depth_of_passes_ret {g : Ground} {i : Instruction Offset} {depth after : UInt16}
    (hi : i.opcode = Opcode.ret) (h : Passes g i depth after) :
    depth = if g.returnsValue then 1 else 0 := by
  have hflow : i.opcode.info.flow = .ret := by rw [hi, Opcode.info_of_info? Opcode.info?_ret]
  obtain ⟨e, he, hpops, hafter⟩ := h.effect
  rw [stackEffect_ret hi] at he
  obtain rfl := Except.ok.inj he
  rw [h.returned hflow, UInt16.add_zero] at hafter
  simp only at hpops hafter
  rw [eq_comm, UInt16.sub_eq_iff_eq_add, UInt16.zero_add] at hafter
  exact hafter

theorem flow_of_info? {i : Instruction Offset} {op : Opcode} {info : OpcodeInfo}
    (hi : i.act.opcode = op) (hinfo : op.info? = some info) :
    i.opcode.info.flow = info.flow := by
  rw [← Opcode.flow_longForm, ← Opcode.info_of_info? hinfo, ← hi]
  rfl

/-- Control goes nowhere from where it leaves the method or a handler. -/
theorem successors_eq_nil {i : Instruction Offset} (h : i.opcode.info.flow = .ret ∨
    i.opcode.info.flow = .throws ∨ i.opcode.info.flow = .endFinally) : successors i = [] := by
  unfold successors
  rcases h with h | h | h <;> rw [h]

/-! ### The new code in stretches -/

namespace CodeParts

/-- The clauses of an instrumented method. -/
def clauses (c : CodeParts) (body : MethodBody) (plan : Option ExitPlan) (r : ProbedMethod) :
    List Clause :=
  body.clauses.map (Clause.moved (r.edge (.ofNat c.innerEnd))) ++
    plan.elim [] fun p => c.exitClauses p.exceptionType

/-- The parts of the new code, each with the depths that control enters it with: the
image of an instruction with those of the instruction. -/
def stretches (c : CodeParts) (code : List (Instruction Offset)) (report : StackReport) :
    List Stretch :=
  ⟨c.entry, (· = 0)⟩ ::
    ((code.zip c.images).map fun (i, image) => ⟨image, fun d => (i.offset, d) ∈ report.depths⟩) ++
    [⟨c.catch_, (· = 1)⟩, ⟨c.finally_, (· = 0)⟩, ⟨c.epilogue, (· = 0)⟩]

theorem mem_stretches_iff {c : CodeParts} {code : List (Instruction Offset)} {report : StackReport}
    {s : Stretch} :
    s ∈ c.stretches code report ↔
      s = ⟨c.entry, (· = 0)⟩ ∨
      (∃ (k : Nat) (i : Instruction Offset) (image : List (Instruction Offset)),
        code[k]? = some i ∧ c.images[k]? = some image ∧
          s = ⟨image, fun d => (i.offset, d) ∈ report.depths⟩) ∨
      s = ⟨c.catch_, (· = 1)⟩ ∨ s = ⟨c.finally_, (· = 0)⟩ ∨ s = ⟨c.epilogue, (· = 0)⟩ := by
  have himages : s ∈ (code.zip c.images).map (fun (i, image) =>
      (⟨image, fun d => (i.offset, d) ∈ report.depths⟩ : Stretch)) ↔
      ∃ (k : Nat) (i : Instruction Offset) (image : List (Instruction Offset)),
        code[k]? = some i ∧ c.images[k]? = some image ∧
          s = ⟨image, fun d => (i.offset, d) ∈ report.depths⟩ := by
    constructor
    · intro hs
      obtain ⟨⟨i, image⟩, hzip, rfl⟩ := List.mem_map.mp hs
      obtain ⟨k, hk⟩ := List.mem_iff_getElem?.mp hzip
      obtain ⟨hi, himage⟩ := List.getElem?_zip_eq_some.mp hk
      exact ⟨k, i, image, hi, himage, rfl⟩
    · rintro ⟨k, i, image, hi, himage, rfl⟩
      exact List.mem_map.mpr ⟨(i, image),
        List.mem_of_getElem? (List.getElem?_zip_eq_some.mpr ⟨hi, himage⟩), rfl⟩
  simp only [stretches, List.cons_append, List.mem_cons, List.mem_append, List.not_mem_nil,
    or_false, himages]

/-- The exit probe protects the method from its start on. -/
theorem tryOffset_exitClauses (c : CodeParts) {exceptionType : Option Token} {cl : Clause}
    (hcl : cl ∈ c.exitClauses exceptionType) : cl.tryOffset = .ofNat c.innerStart := by
  rcases List.mem_append.mp hcl with hcl | hcl
  · obtain ⟨type, -, rfl⟩ := Option.map_eq_some_iff.mp (Option.mem_toList.mp hcl)
    rfl
  · obtain rfl := List.mem_singleton.mp hcl
    rfl

end CodeParts

/-- A method whose stack is known was instrumented, and so are the signatures of the
helpers. -/
structure Measured (body : MethodBody) (code : List (Instruction Offset)) (size : Offset)
    (method enter : Token) (answerSlot : UInt16) (plan : Option ExitPlan) (r : ProbedMethod)
    (c : CodeParts) (returnsValue : Bool) (callSites : CallSites) (report : StackReport) :
    Prop where
  relocated : Relocated body code size method enter answerSlot plan r c
  contiguous : Contiguous 0 code
  size_eq : size.toNat = codeEnd 0 code
  short : codeEnd 0 code ≤ Offset.last
  code_ne : code ≠ []
  proper : ∀ cl ∈ body.clauses, cl.Proper code size
  filter : ∀ cl ∈ body.clauses, cl.isFilter = false
  walked : simulateStack code body.clauses returnsValue callSites = .ok report
  enter : callSites enter = .ok HelperRef.enterSignature
  exit : ∀ p ∈ plan, ExitKnown callSites returnsValue p.exit
  slots : ∀ p ∈ plan, p.slots.value.isSome = returnsValue
  depth : report.maxDepth ≤ r.maxStack
  needed : Draft.neededStack (plan.map ExitPlan.slots) ≤ r.maxStack

namespace Measured

variable
  (h : Measured body code size method enter answerSlot plan r c returnsValue callSites report)
include h

/-! ### Depths of the method -/

theorem closed : Closed (.of code body.clauses returnsValue callSites)
    (fun o d => (o, d) ∈ report.depths) :=
  (closed_of_simulateStack (nodup_offsets h.contiguous) h.walked).1

theorem unique {o : Offset} {d d' : UInt16} (hd : (o, d) ∈ report.depths)
    (hd' : (o, d') ∈ report.depths) : d = d' :=
  (closed_of_simulateStack (nodup_offsets h.contiguous) h.walked).2.1 o d d' hd hd'

/-- What control can reach from an instruction with a depth. -/
theorem step {i : Instruction Offset} (hi : i ∈ code) {d : UInt16}
    (hd : (i.offset, d) ∈ report.depths) :
    ∃ after, Passes (.of code body.clauses returnsValue callSites) i d after ∧
      (d ≤ r.maxStack ∧ after ≤ r.maxStack) ∧
      ∀ t ∈ successors i, (∃ j ∈ code, j.offset = t) ∧
        (t, depthAfter i after) ∈ report.depths := by
  have hmem : i ∈ (Ground.of code body.clauses returnsValue callSites).code :=
    List.mem_toArray.mpr hi
  obtain ⟨after, hpasses, hnext⟩ := h.closed.step i hmem d hd
  obtain ⟨hle, hle'⟩ :=
    (closed_of_simulateStack (nodup_offsets h.contiguous) h.walked).2.2.2 i hmem d after hd hpasses
  refine ⟨after, hpasses, ⟨UInt16.le_trans hle h.depth, UInt16.le_trans hle' h.depth⟩, ?_⟩
  intro t ht
  obtain ⟨⟨j, hj, hoffset⟩, hdepth⟩ := hnext t ht
  exact ⟨⟨j, List.mem_toArray.mp hj, hoffset⟩, hdepth⟩

/-- Control enters the method with nothing on the stack. -/
theorem start {i : Instruction Offset} (hi : code[0]? = some i) : (i.offset, 0) ∈ report.depths :=
  h.closed.start i (by rw [← hi]; exact List.getElem?_toArray)

/-! ### Stretches -/

theorem flatten_stretches : ((c.stretches code report).map Stretch.code).flatten = c.all := by
  have himages : ((code.zip c.images).map fun x => x.2) = c.images :=
    List.map_snd_zip (Nat.le_of_eq h.relocated.count)
  simp only [CodeParts.stretches, List.map_append, List.map_cons, List.map_map, List.map_nil]
  rw [show (Stretch.code ∘ fun x : Instruction Offset × List (Instruction Offset) =>
    (⟨x.2, fun d => (x.1.offset, d) ∈ report.depths⟩ : Stretch)) = fun x => x.2 from rfl, himages]
  simp [CodeParts.all, CodeParts.inner]

omit h in
theorem mem_stretches {k : Nat} {i : Instruction Offset} {image : List (Instruction Offset)}
    (hi : code[k]? = some i) (himage : c.images[k]? = some image) :
    ⟨image, fun d => (i.offset, d) ∈ report.depths⟩ ∈ c.stretches code report :=
  CodeParts.mem_stretches_iff.mpr (.inr (.inl ⟨k, i, image, hi, himage, rfl⟩))

/-- Control enters the image of an instruction as it enters the instruction. -/
theorem entersAt_move {i : Instruction Offset} (hi : i ∈ code) {d : UInt16}
    (hd : (i.offset, d) ∈ report.depths) :
    EntersAt (c.stretches code report) (r.move i.offset) d := by
  obtain ⟨k, hk⟩ := List.mem_iff_getElem?.mp hi
  obtain ⟨j, rest, hj, hoffset, -⟩ := h.relocated.image k i hk
  exact ⟨_, mem_stretches hk hj, hd, j, rfl, hoffset⟩

theorem entersAt_innerStart : EntersAt (c.stretches code report) (.ofNat c.innerStart) 0 := by
  obtain ⟨i, rest, hcode⟩ := List.exists_cons_of_ne_nil h.code_ne
  have hi : code[0]? = some i := by rw [hcode]; rfl
  rw [← h.relocated.move_start hi]
  exact h.entersAt_move (List.mem_of_getElem? hi) (h.start hi)

omit h in
/-- Control enters a part of the tail at its first instruction. -/
theorem entersAt_part {part : List (Instruction Offset)} {start : Nat} {depth : UInt16}
    (hmem : ⟨part, (· = depth)⟩ ∈ c.stretches code report) (hcont : Contiguous start part)
    (hne : part ≠ []) : EntersAt (c.stretches code report) (.ofNat start) depth := by
  obtain ⟨i, rest, rfl⟩ := List.exists_cons_of_ne_nil hne
  exact ⟨_, hmem, rfl, i, rfl, offset_of_head? hcont rfl⟩

/-! ### Protected ranges -/

/-- Protected ranges start within the code of the method. -/
theorem tryOffset_between {cl : Clause} (hcl : cl ∈ c.clauses body plan r) :
    c.innerStart ≤ cl.tryOffset.toNat ∧ cl.tryOffset.toNat < c.innerEnd := by
  have hr := h.relocated
  rcases List.mem_append.mp hcl with hcl | hcl
  · obtain ⟨old, hold, rfl⟩ := List.mem_map.mp hcl
    have hproper := h.proper old hold
    refine ⟨(hr.edge_between h.contiguous h.size_eq hproper.tryStart).1, ?_⟩
    exact Nat.lt_of_lt_of_le
      (hr.edge_lt_edge h.contiguous h.size_eq hproper.tryStart hproper.tryEnd hproper.try_lt)
      (hr.edge_between h.contiguous h.size_eq hproper.tryEnd).2
  · -- a clause of the exit probe starts where the code of the method does
    rcases hplan : plan with - | p
    · rw [hplan] at hcl
      cases hcl
    · rw [hplan, Option.elim_some] at hcl
      have hlt := (hr.fences hplan h.code_ne).start_lt
      have hle := c.starts_le
      rw [UInt32.lt_iff_toNat_lt, hr.toNat_behind, hr.toNat_ofNat (by omega)] at hlt
      rw [c.tryOffset_exitClauses hcl, hr.toNat_ofNat (by omega)]
      exact ⟨Nat.le_refl _, hlt⟩

/-- None starts in the entry probe or in the tail. -/
theorem tryOffset_ne_of_outside {i : Instruction Offset}
    (hi : i.offset.toNat < c.innerStart ∨ c.innerEnd ≤ i.offset.toNat) :
    ∀ cl ∈ c.clauses body plan r, cl.tryOffset ≠ i.offset := by
  rintro cl hcl heq
  have hbetween := h.tryOffset_between hcl
  rw [heq] at hbetween
  omega

/-- Where no protected range of the method starts, none starts now, unless it is the
start of the method. -/
theorem tryOffset_ne_move {k : Nat} {i : Instruction Offset} (hi : code[k]? = some i) (hk : k ≠ 0)
    (hold : ∀ cl ∈ body.clauses, cl.tryOffset ≠ i.offset) :
    ∀ cl ∈ c.clauses body plan r, cl.tryOffset ≠ r.move i.offset := by
  have hr := h.relocated
  have hmem := List.mem_of_getElem? hi
  intro cl hcl heq
  rcases List.mem_append.mp hcl with hcl' | hcl'
  · obtain ⟨old, hold', rfl⟩ := List.mem_map.mp hcl'
    rw [← hr.edge_of_mem (.ofNat c.innerEnd) hmem] at heq
    exact hold old hold' (((hr.edge_increasing h.contiguous h.size_eq).eq_iff
      (h.proper old hold').tryStart (.inl ⟨i, hmem, rfl⟩)).mp heq)
  · rcases plan with - | p
    · cases hcl'
    have hle := c.starts_le
    have hlt := hr.imageStart_lt (Nat.pos_of_ne_zero hk)
      (by rw [hr.count]; exact Nat.le_of_lt (List.getElem?_eq_some_iff.mp hi).1)
    rw [c.imageStart_zero, ← hr.toNat_move hi, ← heq, c.tryOffset_exitClauses hcl',
      hr.toNat_ofNat (by omega)] at hlt
    exact Nat.lt_irrefl _ hlt

/-! ### Soundness of the injected code -/

/-- A part of the tail is sound if its last instruction is, where the ones before it go
on to the next one. -/
theorem sound_part {part : List (Instruction Offset)} {start : Nat} {acts : List (Act Offset)}
    {a : Act Offset} {effects : List StackEffect} {most depth after : UInt16}
    (heffects : List.Forall₂ (Act.Straight callSites returnsValue) acts effects)
    (hacts : part.map Instruction.act = acts ++ [a])
    (hleft : leftBy most depth effects = some after) (hmost : most ≤ r.maxStack)
    (hcont : Contiguous start part) (hstart : c.innerEnd ≤ start)
    (hend : codeEnd start part ≤ Offset.last) {out : Offset → UInt16 → Prop}
    (hlast : ∀ i : Instruction Offset, i.act = a →
      (∀ cl ∈ c.clauses body plan r, cl.tryOffset ≠ i.offset) →
        Sound (.of c.all (c.clauses body plan r) returnsValue callSites) out r.maxStack after [i]) :
    Sound (.of c.all (c.clauses body plan r) returnsValue callSites) out r.maxStack depth part := by
  have houtside : ∀ i ∈ part, ∀ cl ∈ c.clauses body plan r, cl.tryOffset ≠ i.offset :=
    fun i hi => h.tryOffset_ne_of_outside
      (.inr (Nat.le_trans hstart (start_le_offset hcont hi)))
  obtain ⟨is, last, rfl, his, hone⟩ := List.map_eq_append_iff.mp hacts
  obtain ⟨i, rest, rfl, hi, hrest⟩ := List.map_eq_cons_iff.mp hone
  obtain rfl := List.map_eq_nil_iff.mp hrest
  exact sound_append (forall₂_straight heffects his) hleft hmost
    (fun j hj => houtside j (by simp [hj])) hcont hend (fun _ _ hnil => by cases hnil)
    (hlast i hi (houtside i (by simp)))

omit h in
/-- With nothing on the stack, an instruction that touches nothing is sound if control goes
nowhere from it. -/
theorem sound_idle {i : Instruction Offset} {op : Opcode} {info : OpcodeInfo}
    (hop : i.act.opcode = op) (hinfo : op.info? = some info) (hpops : info.pops = .slots 0)
    (hpushes : info.pushes = .slots 0) (hflow : info.flow = .throws ∨ info.flow = .endFinally)
    {g : Ground} {out : Offset → UInt16 → Prop} {most : UInt16} : Sound g out most 0 [i] := by
  refine sound_last (passes_of_idle hop hinfo hpops hpushes) UInt16.zero_le UInt16.zero_le
    fun t ht => ?_
  rw [successors_eq_nil (.inr (flow_of_info? hop hinfo ▸ hflow))] at ht
  cases ht

theorem one_le_maxStack : 1 ≤ r.maxStack := by
  refine UInt16.le_trans ?_ h.needed
  rcases plan with - | p
  · exact UInt16.le_refl _
  · show 1 ≤ if p.slots.value.isSome then (3 : UInt16) else 2
    split <;> decide

/-- Control passes the entry probe and comes to the start of the method. -/
theorem sound_entry :
    Sound (.of c.all (c.clauses body plan r) returnsValue callSites)
      (EntersAt (c.stretches code report)) r.maxStack 0 c.entry := by
  have hr := h.relocated
  have hcont := (c.contiguous_parts hr.contiguous).1
  have hend := hr.codeEnd_entry_le
  have hleft : leftBy 1 0 [⟨0, 1⟩, ⟨1, 1⟩, ⟨1, 0⟩] = some 0 := by decide
  rw [← List.append_nil c.entry]
  refine sound_append (forall₂_straight (straight_entryActs h.enter) hr.entry) hleft
    h.one_le_maxStack ?_ (by rwa [List.append_nil]) (by rwa [List.append_nil]) ?_ trivial
  · intro i hi
    exact h.tryOffset_ne_of_outside (.inl (offset_lt_codeEnd hcont hi))
  · intro i hi _
    rw [hr.nextOffset_entry hi]
    exact h.entersAt_innerStart

section Tail

variable {p : ExitPlan} (hplan : plan = some p)
include hplan

theorem needed_le : (if returnsValue then 3 else 2) ≤ r.maxStack := by
  have hneeded := h.needed
  have hslots := h.slots p hplan
  subst hplan hslots
  exact hneeded

/-- Where exceptions are observed, the catch handler is sound. -/
theorem sound_catch {out : Offset → UInt16 → Prop} :
    Sound (.of c.all (c.clauses body plan r) returnsValue callSites) out r.maxStack 1 c.catch_ := by
  have hr := h.relocated
  have hcatch := hr.catch_
  have hle := c.starts_le
  have hbounded := hr.bounded
  obtain ⟨-, -, hcont, -⟩ := c.contiguous_parts hr.contiguous
  rw [hplan, Option.elim_some, ExitPlan.catchActs] at hcatch
  split at hcatch
  · have hleft : leftBy 1 1 [⟨1, 0⟩] = some 0 := by decide
    refine h.sound_part (.cons (fun _ => straight_storeLocal) .nil) hcatch hleft
      h.one_le_maxStack hcont (Nat.le_refl _) (by show c.finallyStart ≤ _; omega) ?_
    intro i hi _
    exact sound_idle (congrArg Act.opcode hi) Opcode.info?_rethrow rfl rfl (.inl rfl)
  · rw [List.map_eq_nil_iff.mp hcatch]
    trivial

/-- The finally handler is sound. -/
theorem sound_finally {out : Offset → UInt16 → Prop} :
    Sound (.of c.all (c.clauses body plan r) returnsValue callSites) out r.maxStack 0
      c.finally_ := by
  have hr := h.relocated
  have hfinally := hr.finally_
  have hslots := h.slots p hplan
  have hcall := straight_callExit (h.exit p hplan)
  have hle := c.starts_le
  have hbounded := hr.bounded
  obtain ⟨-, -, -, hcont, -⟩ := c.contiguous_parts hr.contiguous
  have hneeded := h.needed_le hplan
  rw [hplan, Option.elim_some, ExitPlan.finallyActs] at hfinally
  have hlast : ∀ i : Instruction Offset, i.act = ⟨Opcode.endfinally, .none⟩ →
      (∀ cl ∈ c.clauses body plan r, cl.tryOffset ≠ i.offset) →
        Sound (.of c.all (c.clauses body plan r) returnsValue callSites) out r.maxStack 0 [i] :=
    fun i hi _ => sound_idle (congrArg Act.opcode hi) Opcode.info?_endfinally rfl rfl (.inr rfl)
  have hload : ∀ slot, Act.Straight callSites returnsValue (Instruction.loadLocal slot).act
      ⟨0, 1⟩ := fun slot _ => straight_loadLocal
  -- the value is one more argument of the helper, if the method returns one
  rcases hvalue : p.slots.value with - | slot
  · rw [hvalue] at hfinally hslots
    obtain rfl : false = returnsValue := hslots
    have hleft : leftBy 2 0 [⟨0, 1⟩, ⟨0, 1⟩, ⟨2, 0⟩] = some 0 := by decide
    exact h.sound_part (.cons (hload _) (.cons (hload _) (.cons hcall .nil))) hfinally hleft hneeded
      hcont (by omega) (by show c.epilogueStart ≤ _; omega) hlast
  · rw [hvalue] at hfinally hslots
    obtain rfl : true = returnsValue := hslots
    have hleft : leftBy 3 0 [⟨0, 1⟩, ⟨0, 1⟩, ⟨0, 1⟩, ⟨3, 0⟩] = some 0 := by decide
    exact h.sound_part (.cons (hload _) (.cons (hload _) (.cons (hload _) (.cons hcall .nil))))
      hfinally hleft hneeded hcont (by omega) (by show c.epilogueStart ≤ _; omega) hlast

/-- The epilogue is sound. -/
theorem sound_epilogue {out : Offset → UInt16 → Prop} :
    Sound (.of c.all (c.clauses body plan r) returnsValue callSites) out r.maxStack 0
      c.epilogue := by
  have hr := h.relocated
  have hepilogue := hr.epilogue
  have hslots := h.slots p hplan
  have hle := c.starts_le
  have hbounded := hr.bounded
  obtain ⟨-, -, -, -, hcont⟩ := c.contiguous_parts hr.contiguous
  have hend : codeEnd c.epilogueStart c.epilogue ≤ Offset.last := by
    unfold CodeParts.all at hbounded
    simp only [codeEnd_append] at hbounded
    exact hbounded
  rw [hplan, Option.elim_some, ExitPlan.epilogueActs] at hepilogue
  have hlast : ∀ i : Instruction Offset, i.act = ⟨Opcode.ret, .none⟩ →
      (∀ cl ∈ c.clauses body plan r, cl.tryOffset ≠ i.offset) →
        Sound (.of c.all (c.clauses body plan r) returnsValue callSites) out r.maxStack
          (if returnsValue then 1 else 0) [i] := by
    intro i hi hinside
    have hop : i.opcode = Opcode.ret :=
      Opcode.eq_of_longForm_eq (congrArg Act.opcode hi) (by decide +kernel)
    refine sound_last (passes_ret hop hinside) ?_ UInt16.zero_le fun t ht => ?_
    · split
      · exact h.one_le_maxStack
      · exact UInt16.zero_le
    · rw [successors_eq_nil (.inl (flow_of_info? (congrArg Act.opcode hi) Opcode.info?_ret))] at ht
      cases ht
  -- what was stored at the return is loaded again, if it was stored
  rcases hvalue : p.slots.value with - | slot
  · rw [hvalue] at hepilogue hslots
    obtain rfl : false = returnsValue := hslots
    have hleft : leftBy 0 0 [] = some 0 := by decide
    exact h.sound_part .nil hepilogue hleft UInt16.zero_le hcont (by omega) hend hlast
  · rw [hvalue] at hepilogue hslots
    obtain rfl : true = returnsValue := hslots
    have hleft : leftBy 1 0 [⟨0, 1⟩] = some 1 := by decide
    exact h.sound_part (.cons (fun _ => straight_loadLocal) .nil) hepilogue hleft h.one_le_maxStack
      hcont (by omega) hend hlast

end Tail

/-! ### Soundness of the images -/

/-- What stays of an instruction goes where the instruction goes, moved. -/
theorem successors_image {k : Nat} {i j : Instruction Offset} (hi : code[k]? = some i)
    (hj : c.images[k]? = some [j]) (hact : j.act = i.act.map r.move)
    (hnext : ∀ t ∈ successors i, ∃ i' ∈ code, i'.offset = t) :
    successors j = (successors i).map r.move := by
  have hflow := flow_of_act hact
  have htargets : j.operand.targets = i.operand.targets.map r.move := by
    rw [show j.operand = i.operand.map r.move from congrArg Act.operand hact, Operand.targets_map]
  have hnextOffset : i.nextOffset ∈ successors i → j.nextOffset = r.move i.nextOffset := by
    intro hmem
    obtain ⟨i', hi', hoffset⟩ := hnext _ hmem
    have hnext' := next_of_offset_eq h.contiguous h.short hi hi' hoffset
    rw [h.relocated.nextOffset_image [] hj hnext', hoffset]
  unfold successors at hnextOffset ⊢
  rw [hflow]
  rcases hcase : i.opcode.info.flow
  all_goals
    rw [hcase] at hnextOffset
    simp only [htargets, List.map_cons, List.map_nil]
    try rw [hnextOffset List.mem_cons_self]

/-- Where the instruction can be passed, no protected range starts at its image, unless
nothing is on the stack. -/
theorem entered_image {k : Nat} {i : Instruction Offset} (hi : code[k]? = some i) {d after : UInt16}
    (hd : (i.offset, d) ∈ report.depths)
    (hpasses : Passes (.of code body.clauses returnsValue callSites) i d after) :
    d = 0 ∨ ∀ cl ∈ c.clauses body plan r, cl.tryOffset ≠ r.move i.offset := by
  by_cases hzero : d = 0
  · exact .inl hzero
  · have hk : k ≠ 0 := by
      rintro rfl
      exact hzero (h.unique hd (h.start hi))
    exact .inr (h.tryOffset_ne_move hi hk (hpasses.entered.resolve_left hzero))

/-- What stays of an instruction can be passed as the instruction can. -/
theorem passes_image {k : Nat} {i j : Instruction Offset} (hi : code[k]? = some i)
    (hoffset : j.offset = r.move i.offset) (hact : j.act = i.act.map r.move) {d after : UInt16}
    (hd : (i.offset, d) ∈ report.depths)
    (hpasses : Passes (.of code body.clauses returnsValue callSites) i d after) :
    Passes (.of c.all (c.clauses body plan r) returnsValue callSites) j d after := by
  obtain ⟨e, he, hpops, hafter⟩ := hpasses.effect
  refine ⟨?_, ⟨e, (stackEffect_of_act hact).mpr he, hpops, hafter⟩, fun hret => ?_⟩
  · rw [hoffset]
    exact h.entered_image hi hd hpasses
  · exact hpasses.returned (flow_of_act hact ▸ hret)

/-- A redirected return stores what is returned, and leaves to the epilogue. -/
theorem sound_return {p : ExitPlan} (hplan : plan = some p) {k : Nat} {i : Instruction Offset}
    {image : List (Instruction Offset)} (hi : code[k]? = some i)
    (himage : c.images[k]? = some image) (hret : i.opcode = Opcode.ret)
    (hoffset : ∀ j ∈ image.head?, j.offset = r.move i.offset)
    (hacts : image.map Instruction.act = p.returnActs (.ofNat c.epilogueStart)) {d after : UInt16}
    (hd : (i.offset, d) ∈ report.depths)
    (hpasses : Passes (.of code body.clauses returnsValue callSites) i d after) :
    Sound (.of c.all (c.clauses body plan r) returnsValue callSites)
      (EntersAt (c.stretches code report)) r.maxStack d image := by
  have hr := h.relocated
  have hslots := h.slots p hplan
  have hdepth : d = if returnsValue then 1 else 0 := depth_of_passes_ret hret hpasses
  obtain ⟨hcont, hend⟩ := hr.contiguous_image himage
  obtain ⟨is, last, rfl, his, hone⟩ := List.map_eq_append_iff.mp hacts
  obtain ⟨j, rest, rfl, hj, hrest⟩ := List.map_eq_cons_iff.mp hone
  obtain rfl := List.map_eq_nil_iff.mp hrest
  -- leaving, with nothing on the stack
  have hlast : Sound (.of c.all (c.clauses body plan r) returnsValue callSites)
      (EntersAt (c.stretches code report)) r.maxStack 0 [j] := by
    have hop : j.act.opcode = Opcode.leave := congrArg Act.opcode hj
    have hflow := flow_of_info? hop Opcode.info?_leave
    refine sound_last (passes_of_idle hop Opcode.info?_leave rfl rfl) UInt16.zero_le
      UInt16.zero_le fun t ht => ?_
    have hoperand : j.operand = .target (.ofNat c.epilogueStart) := congrArg Act.operand hj
    unfold successors at ht
    rw [hflow, hoperand] at ht
    obtain rfl := List.mem_singleton.mp ht
    rw [depthAfter, ite_self]
    obtain ⟨first, others, hepilogue⟩ := hr.exists_epilogue hplan
    exact entersAt_part (by simp [CodeParts.stretches])
      (c.contiguous_parts hr.contiguous).2.2.2.2 (by simp [hepilogue])
  rcases hvalue : p.slots.value with - | slot
  · rw [hvalue] at his hslots
    obtain rfl : false = returnsValue := hslots
    obtain rfl := List.map_eq_nil_iff.mp his
    rw [hdepth]
    exact hlast
  · rw [hvalue] at his hslots
    obtain rfl : true = returnsValue := hslots
    obtain ⟨store, rest, rfl, hstore, hrest⟩ := List.map_eq_cons_iff.mp his
    obtain rfl := List.map_eq_nil_iff.mp hrest
    subst hdepth
    have hleft : leftBy 1 1 [⟨1, 0⟩] = some 0 := by decide
    refine sound_append (.cons (straight_storeLocal hstore) .nil) hleft h.one_le_maxStack ?_ hcont
      hend (fun _ _ hnil => by cases hnil) hlast
    intro i' hi' cl hcl
    obtain rfl := List.mem_singleton.mp hi'
    rw [hoffset i' rfl]
    exact (h.entered_image hi hd hpasses).resolve_left (by decide) cl hcl

/-- The image of an instruction is sound at every depth that the instruction has. -/
theorem sound_image {k : Nat} {i : Instruction Offset} {image : List (Instruction Offset)}
    (hi : code[k]? = some i) (himage : c.images[k]? = some image) {d : UInt16}
    (hd : (i.offset, d) ∈ report.depths) :
    Sound (.of c.all (c.clauses body plan r) returnsValue callSites)
      (EntersAt (c.stretches code report)) r.maxStack d image := by
  obtain ⟨j, rest, hj, hoffset, hacts⟩ := h.relocated.image k i hi
  obtain rfl := Option.some.inj (himage.symm.trans hj)
  obtain ⟨after, hpasses, hbound, hnext⟩ := h.step (List.mem_of_getElem? hi) hd
  -- either the instruction has stayed as it was, or it is a return that was redirected
  rcases imageActs_cases plan r.move (.ofNat c.epilogueStart) i with
    hsame | ⟨p, hplan, hret, hreturn⟩
  · rw [hsame, List.map_cons] at hacts
    obtain ⟨hact, hrest⟩ := List.cons.inj hacts
    obtain rfl := List.map_eq_nil_iff.mp hrest
    refine sound_last (h.passes_image hi hoffset hact hd hpasses) hbound.1 hbound.2 fun t ht => ?_
    rw [h.successors_image hi himage hact fun t ht => (hnext t ht).1] at ht
    obtain ⟨u, hu, rfl⟩ := List.mem_map.mp ht
    obtain ⟨⟨i', hi', rfl⟩, hdepth⟩ := hnext u hu
    rw [depthAfter, flow_of_act hact]
    exact h.entersAt_move hi' hdepth
  · rw [hreturn] at hacts
    refine h.sound_return hplan hi himage hret ?_ hacts hd hpasses
    rintro j' ⟨⟩
    exact hoffset

/-! ### The depths of the new code -/

/-- The handlers of the new code are entered as those of the method, and the ones of the
exit probe at their first instruction. -/
theorem entersAt_handler {cl : Clause} (hcl : cl ∈ c.clauses body plan r) :
    cl.filterOffset? = none ∧
      EntersAt (c.stretches code report) cl.handlerOffset (if cl.isFinallyLike then 0 else 1) := by
  have hr := h.relocated
  rcases List.mem_append.mp hcl with hcl | hcl
  · obtain ⟨old, hold, rfl⟩ := List.mem_map.mp hcl
    obtain ⟨⟨i, hi, hoffset⟩, hdepth⟩ := h.closed.handler old hold
    have hi := List.mem_toArray.mp hi
    rw [← hoffset] at hdepth
    refine ⟨by simp [Clause.filterOffset?, Clause.isFilter, Clause.moved,
      show old.flags.filter = false from h.filter old hold], ?_⟩
    rw [show (old.moved (r.edge (.ofNat c.innerEnd))).handlerOffset = r.move i.offset by
      rw [← hr.edge_of_mem (.ofNat c.innerEnd) hi, hoffset]
      rfl]
    exact h.entersAt_move hi hdepth
  · rcases plan with - | p
    · cases hcl
    obtain ⟨-, -, hcatch, hfinally, -⟩ := c.contiguous_parts hr.contiguous
    rcases List.mem_append.mp hcl with hcl | hcl
    · obtain ⟨type, htype, rfl⟩ := Option.map_eq_some_iff.mp (Option.mem_toList.mp hcl)
      have hmem : ⟨c.catch_, (· = 1)⟩ ∈ c.stretches code report := by simp [CodeParts.stretches]
      exact ⟨rfl, entersAt_part hmem hcatch (hr.catch_ne_nil (by rw [htype]; rfl))⟩
    · obtain rfl := List.mem_singleton.mp hcl
      have hmem : ⟨c.finally_, (· = 0)⟩ ∈ c.stretches code report := by simp [CodeParts.stretches]
      exact ⟨rfl, entersAt_part hmem hfinally hr.finally_ne_nil⟩

/-- Every stretch is sound at the depths it is entered with. -/
theorem sound_stretches {s : Stretch} (hs : s ∈ c.stretches code report) {d : UInt16}
    (hd : s.entered d) :
    Sound (.of c.all (c.clauses body plan r) returnsValue callSites)
      (EntersAt (c.stretches code report)) r.maxStack d s.code := by
  have hr := h.relocated
  rcases CodeParts.mem_stretches_iff.mp hs with rfl | ⟨k, i, image, hi, himage, rfl⟩ | hs
  · obtain rfl : d = 0 := hd
    exact h.sound_entry
  · exact h.sound_image hi himage hd
  · rcases hplan : plan with - | p
    · -- without an exit probe there is no tail
      have hcatch := hr.catch_
      have hfinally := hr.finally_
      have hepilogue := hr.epilogue
      rw [hplan, Option.elim_none, List.map_eq_nil_iff] at hcatch hfinally hepilogue
      rcases hs with rfl | rfl | rfl
      · rw [hcatch]
        trivial
      · rw [hfinally]
        trivial
      · rw [hepilogue]
        trivial
    · rw [← hplan]
      rcases hs with rfl | rfl | rfl
      · obtain rfl : d = 1 := hd
        exact h.sound_catch hplan
      · obtain rfl : d = 0 := hd
        exact h.sound_finally hplan
      · obtain rfl : d = 0 := hd
        exact h.sound_epilogue hplan

theorem entered_unique {s : Stretch} (hs : s ∈ c.stretches code report) {d d' : UInt16}
    (hd : s.entered d) (hd' : s.entered d') : d = d' := by
  rcases CodeParts.mem_stretches_iff.mp hs with rfl | ⟨k, i, image, -, -, rfl⟩ | rfl | rfl | rfl
  · exact Eq.trans hd (Eq.symm hd')
  · exact h.unique hd hd'
  · exact Eq.trans hd (Eq.symm hd')
  · exact Eq.trans hd (Eq.symm hd')
  · exact Eq.trans hd (Eq.symm hd')

theorem nodup_stretches :
    (((c.stretches code report).map Stretch.code).flatten.map Instruction.offset).Nodup := by
  rw [h.flatten_stretches]
  exact nodup_offsets h.relocated.contiguous

theorem closed_found :
    Closed (.of c.all (c.clauses body plan r) returnsValue callSites)
        (Found (.of c.all (c.clauses body plan r) returnsValue callSites)
          (c.stretches code report)) ∧
      Walk.Bounds (.of c.all (c.clauses body plan r) returnsValue callSites)
        (Found (.of c.all (c.clauses body plan r) returnsValue callSites)
          (c.stretches code report)) r.maxStack := by
  have hr := h.relocated
  refine closed_of_stretches ?_ (fun s hs d hd => h.sound_stretches hs hd) ?_ ?_
    (fun cl hcl => (h.entersAt_handler hcl).2) (fun cl hcl f hf => ?_)
  · rw [h.flatten_stretches]
    rfl
  · exact nodup_offsets hr.contiguous
  · intro i hi
    have hstart : i.offset = .ofNat 0 := by
      refine offset_of_head? hr.contiguous ?_
      rw [List.head?_eq_getElem?, ← hi]
      exact List.getElem?_toArray.symm
    rw [hstart]
    exact entersAt_part (by simp [CodeParts.stretches]) (c.contiguous_parts hr.contiguous).1
      hr.entry_ne_nil
  · rw [(h.entersAt_handler hcl).1] at hf
    cases hf

/-- What is found at the image of an instruction is a depth of the instruction. -/
theorem depth_of_found {i : Instruction Offset} (hi : i ∈ code) {d : UInt16}
    (hd : Found (.of c.all (c.clauses body plan r) returnsValue callSites)
      (c.stretches code report) (r.move i.offset) d) :
    (i.offset, d) ∈ report.depths := by
  obtain ⟨k, hk⟩ := List.mem_iff_getElem?.mp hi
  obtain ⟨j, rest, hj, hoffset, -⟩ := h.relocated.image k i hk
  obtain ⟨s, hs, d₀, hd₀, i', halong, hoffset'⟩ := hd
  have heq : i'.offset = j.offset := hoffset'.trans hoffset.symm
  obtain rfl := stretch_unique h.nodup_stretches hs (mem_stretches hk hj) halong.mem
    List.mem_cons_self heq
  have hnodup := h.nodup_stretches
  rw [List.map_flatten, List.nodup_flatten] at hnodup
  have hone := hnodup.1 _ (List.mem_map_of_mem (List.mem_map_of_mem hs))
  rw [halong.unique hone (.head d₀ j rest) heq]
  exact hd₀

/-! ### Back to the method -/

/-- Control comes through the entry probe to the first image, with nothing on the stack. -/
theorem depth_at_start {report' : StackReport}
    (hwalked : simulateStack c.all (c.clauses body plan r) returnsValue callSites = .ok report')
    {i : Instruction Offset} (hi : code[0]? = some i) : (r.move i.offset, 0) ∈ report'.depths := by
  have hr := h.relocated
  have hclosed := (closed_of_simulateStack (nodup_offsets hr.contiguous) hwalked).1
  have hcont := (c.contiguous_parts hr.contiguous).1
  rcases hlast : c.entry.getLast? with - | last
  · have hacts := hr.entry
    rw [List.getLast?_eq_none_iff.mp hlast] at hacts
    cases hacts
  · rw [hr.move_start hi, ← hr.nextOffset_entry hlast]
    have hleft : leftBy 1 0 [⟨0, 1⟩, ⟨1, 1⟩, ⟨1, 0⟩] = some 0 := by decide
    refine closed_straight hclosed
      (forall₂_straight (straight_entryActs h.enter) hr.entry) hleft
      (fun j hj => List.mem_toArray.mpr (by simp [CodeParts.all, hj])) hcont hr.codeEnd_entry_le ?_
      last hlast
    intro j hj
    refine hclosed.start j ?_
    show c.all.toArray[0]? = some j
    rw [List.getElem?_toArray, ← List.head?_eq_getElem?, CodeParts.all, List.head?_append, hj]
    rfl

/-- Control comes from image to image as it does from instruction to instruction. -/
theorem depth_at_successor {report' : StackReport}
    (hwalked : simulateStack c.all (c.clauses body plan r) returnsValue callSites = .ok report')
    {k : Nat} {i : Instruction Offset} (hk : code[k]? = some i) {d after : UInt16}
    (hd : (i.offset, d) ∈ report.depths) (hd' : (r.move i.offset, d) ∈ report'.depths)
    (hpasses : Passes (.of code body.clauses returnsValue callSites) i d after)
    (hnext : ∀ t ∈ successors i, ∃ i' ∈ code, i'.offset = t) {t : Offset}
    (ht : t ∈ successors i) : (r.move t, depthAfter i after) ∈ report'.depths := by
  have hr := h.relocated
  have hclosed := (closed_of_simulateStack (nodup_offsets hr.contiguous) hwalked).1
  obtain ⟨j, rest, hj, hoffset, hacts⟩ := hr.image k i hk
  rcases imageActs_cases plan r.move (.ofNat c.epilogueStart) i with hsame | ⟨p, -, hret, -⟩
  · rw [hsame, List.map_cons] at hacts
    obtain ⟨hact, hrest⟩ := List.cons.inj hacts
    obtain rfl := List.map_eq_nil_iff.mp hrest
    have hjmem : j ∈ c.all := c.mem_all_of_mem hj List.mem_cons_self
    rw [← hoffset] at hd'
    obtain ⟨after', hpasses', hnext'⟩ := hclosed.step j (List.mem_toArray.mpr hjmem) d hd'
    obtain rfl := hpasses'.unique (h.passes_image hk hoffset hact hd hpasses)
    have ht' : r.move t ∈ successors j := by
      rw [h.successors_image hk hj hact hnext]
      exact List.mem_map_of_mem ht
    have hback := (hnext' _ ht').2
    rwa [depthAfter, flow_of_act hact] at hback
  · -- a return goes nowhere, so there is nothing to show of one that was redirected
    have hflow : i.opcode.info.flow = .ret := by rw [hret, Opcode.info_of_info? Opcode.info?_ret]
    rw [successors_eq_nil (.inl hflow)] at ht
    cases ht

/-- The depths found at images, brought back to the method, are closed. -/
theorem closed_back {report' : StackReport}
    (hwalked : simulateStack c.all (c.clauses body plan r) returnsValue callSites = .ok report') :
    Closed (.of code body.clauses returnsValue callSites)
      (fun o d => (o, d) ∈ report.depths ∧ (r.move o, d) ∈ report'.depths) := by
  have hr := h.relocated
  have hclosed := (closed_of_simulateStack (nodup_offsets hr.contiguous) hwalked).1
  constructor
  case start =>
    intro i hi
    have hi' : code[0]? = some i := by
      rw [← hi]
      exact List.getElem?_toArray.symm
    exact ⟨h.start hi', h.depth_at_start hwalked hi'⟩
  case handler =>
    intro cl hcl
    obtain ⟨⟨i, hi, hoffset⟩, hdepth⟩ := h.closed.handler cl hcl
    refine ⟨⟨i, hi, hoffset⟩, hdepth, ?_⟩
    have hmoved : cl.moved (r.edge (.ofNat c.innerEnd)) ∈ c.clauses body plan r :=
      List.mem_append_left _ (List.mem_map_of_mem hcl)
    obtain ⟨-, hdepth'⟩ := hclosed.handler _ hmoved
    rw [← hoffset, ← hr.edge_of_mem (.ofNat c.innerEnd) (List.mem_toArray.mp hi), hoffset]
    exact hdepth'
  -- methods with filters are not instrumented
  case filter =>
    intro cl hcl f hf
    rw [Clause.filterOffset?, h.filter cl hcl] at hf
    cases hf
  case step =>
    rintro i hi d ⟨hd, hd'⟩
    have hi := List.mem_toArray.mp hi
    obtain ⟨k, hk⟩ := List.mem_iff_getElem?.mp hi
    obtain ⟨after, hpasses, -, hnext⟩ := h.step hi hd
    refine ⟨after, hpasses, fun t ht => ?_⟩
    obtain ⟨⟨i', hi', rfl⟩, hdepth⟩ := hnext t ht
    refine ⟨⟨i', List.mem_toArray.mpr hi', rfl⟩, hdepth, ?_⟩
    exact h.depth_at_successor hwalked hk hd hd' hpasses (fun t ht => (hnext t ht).1) ht

/-- The check of the stack accepts the new code, with the depths of the method at the
images, and none above what is declared. -/
theorem simulateStack_eq_ok :
    ∃ report', simulateStack c.all (c.clauses body plan r) returnsValue callSites = .ok report' ∧
      report'.maxDepth ≤ r.maxStack ∧
      ∀ i ∈ code, ∀ d,
        (i.offset, d) ∈ report.depths ↔ (r.move i.offset, d) ∈ report'.depths := by
  have hr := h.relocated
  obtain ⟨hclosed, hbounds⟩ := h.closed_found
  obtain ⟨report', hwalked, hwithin, hmax⟩ :=
    simulateStack_within (nodup_offsets hr.contiguous) hclosed
    (fun _ _ _ hd hd' => found_unique h.nodup_stretches
      (fun s hs _ _ hd hd' => h.entered_unique hs hd hd') hd hd') hbounds
  refine ⟨report', hwalked, hmax, fun i hi d => ⟨fun hd => ?_, fun hd => ?_⟩⟩
  · -- what is found at images is closed when brought back, and the method's depths are the least
    obtain ⟨-, hfun, -, hbounds'⟩ := closed_of_simulateStack (nodup_offsets h.contiguous) h.walked
    obtain ⟨report₂, hwalked₂, hwithin₂, -⟩ := simulateStack_within (nodup_offsets h.contiguous)
      (h.closed_back hwalked) (fun o d d' hd hd' => hfun o d d' hd.1 hd'.1)
      (fun i hi depth after hd hpasses => hbounds' i hi depth after hd.1 hpasses)
    obtain rfl := Except.ok.inj (h.walked.symm.trans hwalked₂)
    exact (hwithin₂ _ d hd).2
  · exact h.depth_of_found hi (hwithin _ d hd)

end Measured

/-! ### Instrumented methods -/

namespace Check

/-- The call sites know the helpers that the source, in this state, answers with. -/
structure HelpersKnown {σ : Type} (callSites : CallSites) (source : TokenSource (StateM σ))
    (s : σ) (request : ProbeRequest) : Prop where
  enter : ∀ {enter s₁}, source.enter.run.run s = (.ok enter, s₁) →
    callSites enter = .ok HelperRef.enterSignature
  exit : request.policy.exit → ∀ {enter s₁ exit s₂}, source.enter.run.run s = (.ok enter, s₁) →
    (source.exit (if request.returnsValue then some request.signature.ret.unmodified
      else none)).run.run s₁ = (.ok exit, s₂) →
    ExitKnown callSites request.returnsValue exit

/-- A clause whose protected range starts where the longest code there can be ends.  That
range holds something only because no position is behind it. -/
def AtVeryEnd (body : MethodBody) (bytes : List UInt8) : Prop :=
  bytes.length = Offset.last ∧ ∃ cl ∈ body.clauses, cl.tryOffset = .ofNat bytes.length

end Check

section Probe

variable {σ : Type} {source : TokenSource (StateM σ)} {s : σ} {request : ProbeRequest}
  {bytes : List UInt8}

/-- What the exit probe needs on the stack. -/
theorem Instrumented.neededStack
    (h : Instrumented source s request body bytes code enter answerSlot plan r c) :
    Draft.neededStack (plan.map ExitPlan.slots) =
      if request.policy.exit then (if request.returnsValue then 3 else 2) else 1 := by
  obtain ⟨locals, -, hslots, -⟩ := h.locals
  rw [hslots, ProbeRequest.exitSlotsAfter]
  split
  · unfold Draft.slotsAfter
    split <;> rfl
  · rfl

theorem Instrumented.value_isSome
    (h : Instrumented source s request body bytes code enter answerSlot plan r c) :
    ∀ p ∈ plan, request.policy.exit = true ∧ p.slots.value.isSome = request.returnsValue := by
  intro p hp
  obtain ⟨locals, -, hslots, -⟩ := h.locals
  rw [hp, Option.map_some, ProbeRequest.exitSlotsAfter] at hslots
  split at hslots
  · next hexit =>
    rw [Option.some.inj hslots]
    unfold Draft.slotsAfter
    exact ⟨hexit, by split <;> simp_all⟩
  · cases hslots

/-- What the source answered for the exit probe. -/
theorem Instrumented.asked_exit {p : ExitPlan}
    (h : Instrumented source s request body bytes code enter answerSlot (some p) r c) :
    ∃ s₁ s₂, source.enter.run.run s = (.ok enter, s₁) ∧
      (source.exit (if request.returnsValue then some request.signature.ret.unmodified
        else none)).run.run s₁ = (.ok p.exit, s₂) ∧
      (∀ type ∈ p.exceptionType, ∃ s₃, source.exceptionType.run.run s₂ = (.ok type, s₃)) ∧
      p.exceptionType.isSome = request.policy.exception := by
  obtain ⟨s₁, henter, hasked⟩ := h.asked
  obtain ⟨⟨s₂, hexit, htype⟩, hobserved⟩ := hasked p rfl
  have hask : (p.slots.value.map fun _ => request.signature.ret.unmodified) =
      if request.returnsValue then some request.signature.ret.unmodified else none := by
    rw [← (h.value_isSome p rfl).2]
    rcases p.slots.value with - | slot <;> rfl
  rw [hask] at hexit
  exact ⟨s₁, s₂, henter, hexit, htype, hobserved⟩

/-- A method with known depths, instrumented with known helpers. -/
theorem measured_of_instrumented
    (h : Instrumented source s request body bytes code enter answerSlot plan r c)
    (hstructure : checkStructure code (.ofNat bytes.length) body.clauses = .ok ())
    (hwalked : simulateStack code body.clauses request.returnsValue callSites = .ok report)
    (hmax : report.maxDepth ≤ body.maxStack) (hknown : HelpersKnown callSites source s request)
    (hend : ¬AtVeryEnd body bytes) :
    Measured body code (.ofNat bytes.length) request.method enter answerSlot plan r c
        request.returnsValue callSites report ∧
      WellStructured code (.ofNat bytes.length) body.clauses := by
  have hcont := h.contiguous
  have hlen := h.codeEnd_eq
  have hshort := h.short
  have hsize := h.size_eq
  have hwell := (checkStructure_eq_ok_iff hcont hsize).mp hstructure
  have hclosed := (closed_of_simulateStack (nodup_offsets hcont) hwalked).1
  -- a range starts in front of some code, but for one at the end of the largest code there is
  have hproper : ∀ cl ∈ body.clauses, cl.Proper code (.ofNat bytes.length) := by
    intro cl hcl
    obtain ⟨n, hplaced⟩ := hwell.exists_placed hcl
    have hbelow : ∀ i ∈ code, i.offset.toNat < Offset.last := fun i hi =>
      Nat.lt_of_lt_of_le (offset_lt_codeEnd hcont hi) (by omega)
    refine hplaced.proper ?_ ?_
    · rcases hplaced.edges cl.tryOffset (by simp [Check.edges]) with ⟨i, hi, hoffset⟩ | htry
      · exact hoffset ▸ hbelow i hi
      · rw [htry, hsize, hlen]
        exact Nat.lt_of_le_of_ne hshort fun hlast => hend ⟨hlast, cl, hcl, htry⟩
    · obtain ⟨⟨i, hi, hoffset⟩, -⟩ := hclosed.handler cl hcl
      exact hoffset ▸ hbelow i (List.mem_toArray.mp hi)
  obtain ⟨s₁, henter, -⟩ := h.asked
  refine ⟨?_, hwell⟩
  exact {
    relocated := h.relocated
    contiguous := hcont
    size_eq := hsize
    short := by omega
    code_ne := h.code_ne_nil
    proper := hproper
    filter := (ProbeRequest.checkShape_eq_ok h.shape).1
    walked := hwalked
    enter := hknown.enter henter
    exit := by
      rintro p rfl
      obtain ⟨s₁, s₂, henter, hexit, -⟩ := h.asked_exit
      exact hknown.exit (h.value_isSome p rfl).1 henter hexit
    slots := fun p hp => (h.value_isSome p hp).2
    depth := by
      rw [h.maxStack]
      exact UInt16.le_trans hmax (left_le_max _ _)
    needed := by
      rw [h.maxStack]
      exact right_le_max _ _ }

/-- The check of a body with call sites accepts what was made of a body that it accepts,
and finds the same depths. -/
theorem checkBody_of_measured
    (h : Measured body code size method enter answerSlot plan r c returnsValue callSites report)
    (hwell : WellStructured code size body.clauses) :
    ∃ report', checkBody r.body returnsValue (some callSites) = .ok (some report') ∧
      report'.maxDepth ≤ r.maxStack ∧
      ∀ i ∈ code, ∀ d,
        (i.offset, d) ∈ report.depths ↔ (r.move i.offset, d) ∈ report'.depths := by
  have hr := h.relocated
  obtain ⟨new, hread, hbytes, hmax, -, -, hclauses⟩ := hr.read
  obtain ⟨report', hwalked, hle, hdepths⟩ := h.simulateStack_eq_ok
  have hlen : codeEnd 0 c.all = (codeBytes c.all).length := by
    rw [codeEnd_eq hr.encodable, Nat.zero_add]
  have hsize : (UInt32.ofNat (codeEnd 0 c.all)).toNat = codeEnd 0 c.all :=
    hr.toNat_ofNat (Nat.le_refl _)
  refine ⟨report', checkBody_some_eq_ok.mpr ⟨new, codeBytes c.all, c.all, hread, hbytes,
    hr.decode_all, ?_, ?_, ?_⟩, hle, hdepths⟩
  · rw [← hlen, hclauses]
    exact (checkStructure_eq_ok_iff hr.contiguous hsize).mpr
      (hr.wellStructured h.contiguous h.size_eq h.proper h.filter hwell)
  · rw [hclauses]
    exact hwalked
  · rw [hmax]
    exact hle

/-- Instrumenting keeps stack depths.  Say that the check with call sites accepts a body,
and the call sites know the helpers.  Then it accepts what the body becomes, finds at
each new position the depth that it found at the old one, and none above the declared
one, which is the larger of what the body declared and what the probes need.  Code of the
largest size must not have a protected range at its very end, as such a range has nowhere
to go (`CilProbe/Proofs/Probe/LargestCode.lean`); all other code may have any clauses. -/
theorem depths_survive {σ : Type} {source : TokenSource (StateM σ)} {request : ProbeRequest}
    {limit : Nat} {r : ProbedMethod} {s s' : σ} {callSites : CallSites} {report : StackReport}
    (hbody : Check.checkBody request.body request.returnsValue (some callSites) =
      .ok (some report))
    (hend : ∀ body bytes, request.read = .ok (body, bytes) → ¬AtVeryEnd body bytes)
    (hknown : HelpersKnown callSites source s request)
    (h : (probe limit request source).run.run s = (.ok (.probed r), s')) :
    ∃ body bytes report', request.read = .ok (body, bytes) ∧
      Check.checkBody r.body request.returnsValue (some callSites) = .ok (some report') ∧
      r.maxStack = max body.maxStack
        (if request.policy.exit then (if request.returnsValue then 3 else 2) else 1) ∧
      report'.maxDepth ≤ r.maxStack ∧
      (∀ o d, (o, d) ∈ report.depths → ∃ n, (o, n) ∈ r.offsetMap) ∧
      ∀ o n, (o, n) ∈ r.offsetMap →
        ∀ d, (o, d) ∈ report.depths ↔ (n, d) ∈ report'.depths := by
  obtain ⟨body, bytes, code, enter, answerSlot, plan, c, hi⟩ := instrumented_of_probe h
  obtain ⟨body', bytes', code', hread', hbytes', hdecode', hstructure, hwalked, hmax⟩ :=
    checkBody_some_eq_ok.mp hbody
  obtain ⟨hread, hbytes, -⟩ := ProbeRequest.read_eq_ok.mp hi.read
  obtain rfl := Except.ok.inj (hread.symm.trans hread')
  obtain rfl := Except.ok.inj (hbytes.symm.trans hbytes')
  obtain rfl := Except.ok.inj (hi.decoded.symm.trans hdecode')
  obtain ⟨hmeasured, hwell⟩ :=
    measured_of_instrumented hi hstructure hwalked hmax hknown (hend _ _ hi.read)
  obtain ⟨report', hcheck, hle, hdepths⟩ := checkBody_of_measured hmeasured hwell
  have hmap := hi.relocated.offsetMap
  refine ⟨body, bytes, report', hi.read, hcheck, ?_, hle, ?_, ?_⟩
  · rw [hi.maxStack, hi.neededStack]
  · intro o d hd
    have hdistinct := nodup_offsets hmeasured.contiguous
    obtain ⟨i, hi, rfl⟩ := (closed_of_simulateStack hdistinct hwalked).2.2.1 o d hd
    exact ⟨r.move i.offset, hmap ▸ List.mem_map_of_mem hi⟩
  · intro o n hn d
    rw [hmap] at hn
    obtain ⟨i, hi, heq⟩ := List.mem_map.mp hn
    obtain ⟨rfl, rfl⟩ := Prod.mk.inj heq
    exact hdepths i hi d

end Probe

/-! ### The method that returns a constant, once more -/

/-- Call sites that know the helpers. -/
def helperCallSites : CallSites := fun token =>
  if token = ⟨0x0A000001⟩ then .ok HelperRef.enterSignature
  else .ok (HelperRef.exitSignature (some (.primitive .i4)))

theorem helpersKnown_constantRequest :
    HelpersKnown helperCallSites fixedSource () constantRequest where
  enter := by
    intro enter s₁ h
    cases h
    rfl
  exit := by
    intro _ enter s₁ exit s₂ _ h
    cases h
    exact ⟨some (.primitive .i4), by simp [TypeSig.isSentinel], rfl, rfl⟩

/-- The code of the method: load zero, and return. -/
def constantCode : List (Instruction Offset) := [⟨0, ⟨0x16⟩, .none⟩, ⟨1, Opcode.ret, .none⟩]

/-- One value is on the stack when the method returns. -/
theorem simulateStack_constantCode :
    simulateStack constantCode [] true helperCallSites = .ok ⟨[(0, 0), (1, 1)], 1⟩ := by
  have hdecode : decode [0x16, 0x2A] = .ok constantCode := rfl
  obtain ⟨-, -, hcont⟩ := decode_eq_ok_iff.mp hdecode
  set g := Ground.of constantCode [] true helperCallSites with hg
  have hnext : g.index[(1 : Offset)]? = some 1 :=
    (indexed_of [] true helperCallSites (nodup_offsets hcont) 1 1).mpr ⟨_, rfl, rfl⟩
  have hload : Passes g ⟨0, ⟨0x16⟩, .none⟩ 0 1 :=
    ⟨.inl rfl, ⟨⟨0, 1⟩, rfl, by decide, rfl⟩, fun h => by cases h⟩
  have hret : Passes g ⟨1, Opcode.ret, .none⟩ 1 0 :=
    ⟨.inr (by simp [hg, Ground.of]), ⟨⟨1, 0⟩, rfl, by decide, rfl⟩, fun _ => rfl⟩
  have hfirst : Walk.pass g ⟨#[some 0, none], [], 0⟩ ⟨0, ⟨0x16⟩, .none⟩ 0 =
      .ok ⟨#[some 0, some 1], [1], 1⟩ :=
    Walk.pass_eq_ok.mpr ⟨1, hload,
      bind_eq_ok.mpr ⟨_, Walk.enter_eq_ok.mpr ⟨1, hnext, .inr ⟨rfl, rfl⟩⟩, rfl⟩⟩
  have hsecond : Walk.pass g ⟨#[some 0, some 1], [], 1⟩ ⟨1, Opcode.ret, .none⟩ 1 =
      .ok ⟨#[some 0, some 1], [], 1⟩ :=
    Walk.pass_eq_ok.mpr ⟨0, hret, rfl⟩
  exact (simulateStack_eq_ok _ _ _).mpr ⟨⟨#[some 0, none], [0], 0⟩, ⟨#[some 0, some 1], [], 1⟩, rfl,
    bind_eq_ok.mpr ⟨_, hfirst, bind_eq_ok.mpr ⟨_, hsecond, rfl⟩⟩, rfl⟩

theorem checkBody_constantRequest :
    checkBody constantRequest.body true (some helperCallSites) =
      .ok (some ⟨[(0, 0), (1, 1)], 1⟩) :=
  checkBody_some_eq_ok.mpr ⟨_, [0x16, 0x2A], constantCode, rfl, rfl, rfl, rfl,
    simulateStack_constantCode, by decide⟩

theorem depths_survive_constantRequest :
    checkBody constantRequest.body true (some helperCallSites) =
        .ok (some ⟨[(0, 0), (1, 1)], 1⟩) ∧
      (∀ body bytes, constantRequest.read = .ok (body, bytes) → ¬AtVeryEnd body bytes) ∧
      HelpersKnown helperCallSites fixedSource () constantRequest ∧
      (probe 32 constantRequest fixedSource).run.run () = (.ok (.probed probedConstant), ()) ∧
      ∃ report', checkBody probedConstant.body true (some helperCallSites) = .ok (some report') ∧
        (11, 0) ∈ report'.depths ∧ (12, 1) ∈ report'.depths ∧ report'.maxDepth ≤ 8 := by
  have hend : ∀ body bytes, constantRequest.read = .ok (body, bytes) → ¬AtVeryEnd body bytes := by
    rintro body bytes hread ⟨hlength, -⟩
    cases hread
    cases hlength
  refine ⟨checkBody_constantRequest, hend, helpersKnown_constantRequest, probe_constantRequest, ?_⟩
  obtain ⟨body, bytes, report', hread, hcheck, -, hmax, -, hdepths⟩ :=
    depths_survive checkBody_constantRequest hend helpersKnown_constantRequest
      probe_constantRequest
  cases hread
  exact ⟨report', hcheck, (hdepths 0 11 (by decide) 0).mp (by decide),
    (hdepths 1 12 (by decide) 1).mp (by decide), hmax⟩

end CilProbe
