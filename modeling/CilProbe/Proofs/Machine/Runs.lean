/-
CilProbe/Proofs/Machine/Runs.lean

How runs go.  A run passes code that goes on from each instruction to the next one as
the instructions say (`reaches_straight`).  The instructions that probes are made of do
what they are for: they move values between the stack and the locals, load a number,
and call helpers.
-/
import CilProbe.Proofs.Cil.Positions
import CilProbe.Proofs.Machine.Basic
import Mathlib.Data.List.Nodup

namespace CilProbe

/-! ### Instructions at positions -/

theorem Method.fetch_of_mem {m : Method} {start : Nat} (hcont : Contiguous start m.code)
    {i : Instruction Offset} (hi : i ∈ m.code) : m.fetch i.offset = some i := by
  unfold Method.fetch
  rcases hfind : m.code.find? (·.offset == i.offset) with - | j
  · exact absurd (beq_self_eq_true i.offset) (List.find?_eq_none.mp hfind i hi)
  · have hoffset : j.offset = i.offset := by simpa using List.find?_some hfind
    exact hfind.trans (congrArg some (List.inj_on_of_nodup_map (nodup_offsets hcont)
      (List.mem_of_find?_eq_some hfind) hi hoffset))

theorem Method.mem_of_fetch {m : Method} {pc : Offset} {i : Instruction Offset}
    (h : m.fetch pc = some i) : i ∈ m.code ∧ i.offset = pc :=
  ⟨List.mem_of_find?_eq_some h, by simpa using List.find?_some h⟩

namespace Machine

variable {M : Machine}

/-! ### Runs one after the other -/

theorem Reaches.trans {m : Method} {s s' s'' : M.State} (h : Reaches m s s')
    (h' : Reaches m s' s'') : Reaches m s s'' := by
  induction h with
  | refl => exact h'
  | go hstep _ ih => exact .go hstep (ih h')

theorem Ends.of_reaches {m : Method} {s s' : M.State} {f : M.Final} (h : Reaches m s s')
    (h' : Ends m s' f) : Ends m s f := by
  induction h with
  | refl => exact h'
  | go hstep _ ih => exact .go hstep (ih h')

/-! ### The instructions of probes -/

section Exec

variable {stack : List M.Value} {locals : UInt16 → M.Value} {heap : M.Heap} {slot : UInt16}

/-- A word without a short branch is as it was written. -/
theorem new_act {τ : Type} {i : Instruction τ} (h : i.opcode.isBranch = false)
    (hzero : i.offset = 0) : Instruction.new i.act.opcode i.act.operand = i := by
  have hlong : i.opcode.longForm = i.opcode := by
    refine Opcode.longForm_of_not_isShortBranch fun hshort => ?_
    rw [Opcode.isBranch_of_isShortBranch hshort] at h
    cases h
  unfold Instruction.new Instruction.act
  rw [hlong, ← hzero]

theorem word_storeLocal {i : Instruction Offset} (hi : i.act = (Instruction.storeLocal slot).act) :
    Instruction.new i.word.opcode i.word.operand = (.storeLocal slot : Instruction Unit) := by
  unfold Instruction.word
  rw [hi, act_storeLocal_map]
  obtain ⟨kind, hmoves, -⟩ := Instruction.storeLocal_cases (τ := Unit) slot
  refine new_act hmoves.2.2.2.2.2 ?_
  unfold Instruction.storeLocal
  split
  · rfl
  · split <;> rfl

theorem word_loadLocal {i : Instruction Offset} (hi : i.act = (Instruction.loadLocal slot).act) :
    Instruction.new i.word.opcode i.word.operand = (.loadLocal slot : Instruction Unit) := by
  unfold Instruction.word
  rw [hi, act_loadLocal_map]
  obtain ⟨kind, hmoves, -⟩ := Instruction.loadLocal_cases (τ := Unit) slot
  refine new_act hmoves.2.2.2.2.2 ?_
  unfold Instruction.loadLocal
  split
  · rfl
  · split <;> rfl

theorem exec_storeLocal {i : Instruction Offset}
    (hi : i.act = (Instruction.storeLocal slot).act) (v : M.Value) :
    M.exec i.word ⟨v :: stack, locals, heap⟩ =
      .goes none ⟨stack, Function.update locals slot v, heap⟩ [] := by
  unfold exec
  rw [word_storeLocal hi]
  simp only [Instruction.storedLocal?_storeLocal]

theorem exec_storeLocal_nil {i : Instruction Offset}
    (hi : i.act = (Instruction.storeLocal slot).act) :
    M.exec i.word ⟨[], locals, heap⟩ = .stuck := by
  unfold exec
  rw [word_storeLocal hi]
  simp only [Instruction.storedLocal?_storeLocal]

theorem exec_loadLocal {i : Instruction Offset} (hi : i.act = (Instruction.loadLocal slot).act) :
    M.exec i.word ⟨stack, locals, heap⟩ =
      .goes none ⟨locals slot :: stack, locals, heap⟩ [] := by
  unfold exec
  rw [word_loadLocal hi]
  simp only [Instruction.storedLocal?_loadLocal, Instruction.loadedLocal?_loadLocal]

theorem exec_ldc {i : Instruction Offset} {n : Int32} (hi : i.act = ⟨Opcode.ldc, .int32 n⟩) :
    M.exec i.word ⟨stack, locals, heap⟩ = .goes none ⟨M.int32 n :: stack, locals, heap⟩ [] := by
  unfold Instruction.word
  rw [hi]
  rfl

theorem exec_call {i : Instruction Offset} {token : Token}
    (hi : i.act = ⟨Opcode.call, .token token⟩) (f : Frame M.Value M.Heap) :
    M.exec i.word f = M.effect ⟨Opcode.call, .token token⟩ f := by
  unfold Instruction.word
  rw [hi]
  rfl

end Exec

/-! ### Helpers -/

/-- What a token stands for is a helper with so many arguments, which answers with a value
or without one: it does not throw, and it leaves alone what methods can see. -/
def Helper (M : Machine) (token : Token) (arity : Nat) (answers : Bool) : Prop :=
  ∀ (args stack : List M.Value) (locals : UInt16 → M.Value) (heap : M.Heap), args.length = arity →
    ∃ answer heap',
      M.effect ⟨Opcode.call, .token token⟩ ⟨args.reverse ++ stack, locals, heap⟩ =
        .goes none ⟨if answers then answer :: stack else stack, locals, heap'⟩
          [M.called token args] ∧
      M.same heap heap'

/-! ### Straight code -/

/-- The instruction goes on to the next one. -/
def GoesOn (i : Instruction Offset) : Prop :=
  i.opcode.info.flow = .sequential ∨ i.opcode.info.flow = .call

theorem goesOn_of_act {i : Instruction Offset} {op : Opcode} (hi : i.act.opcode = op.longForm)
    (hflow : op.info.flow = .sequential ∨ op.info.flow = .call) : GoesOn i := by
  have hop : i.opcode.info.flow = op.info.flow := by
    rw [← Opcode.flow_longForm, show i.opcode.longForm = op.longForm from hi, Opcode.flow_longForm]
  unfold GoesOn
  rwa [hop]

theorem goesOn_storeLocal {i : Instruction Offset} {slot : UInt16}
    (hi : i.act = (Instruction.storeLocal slot).act) : GoesOn i := by
  obtain ⟨kind, hmoves, -⟩ := Instruction.storeLocal_cases (τ := Offset) slot
  exact goesOn_of_act (congrArg Act.opcode hi) (.inl hmoves.2.2.1)

theorem goesOn_loadLocal {i : Instruction Offset} {slot : UInt16}
    (hi : i.act = (Instruction.loadLocal slot).act) : GoesOn i := by
  obtain ⟨kind, hmoves, -⟩ := Instruction.loadLocal_cases (τ := Offset) slot
  exact goesOn_of_act (congrArg Act.opcode hi) (.inl hmoves.2.2.1)

theorem goesOn_call {i : Instruction Offset} {token : Token}
    (hi : i.act = ⟨Opcode.call, .token token⟩) : GoesOn i := by
  have hlong : Opcode.call.longForm = Opcode.call := by decide +kernel
  refine goesOn_of_act ((congrArg Act.opcode hi).trans hlong.symm) (.inr ?_)
  rw [Opcode.info_of_info? Opcode.info?_call]

theorem goesOn_ldc {i : Instruction Offset} {n : Int32} (hi : i.act = ⟨Opcode.ldc, .int32 n⟩) :
    GoesOn i := by
  have hlong : Opcode.ldc.longForm = Opcode.ldc := by decide +kernel
  refine goesOn_of_act ((congrArg Act.opcode hi).trans hlong.symm) (.inl ?_)
  rw [Opcode.info_of_info? Opcode.info?_ldc]

theorem step_eq_perform {m : Method} {s : M.State} (hcont : Contiguous 0 m.code)
    {i : Instruction Offset} (hi : i ∈ m.code) (hpc : s.pc = i.offset) :
    step m s = perform m s i := by
  unfold step
  rw [hpc, Method.fetch_of_mem hcont hi]

theorem step_straight {m : Method} {s : M.State} {i : Instruction Offset}
    (hfetch : m.fetch s.pc = some i) (hgoes : GoesOn i) {f : Frame M.Value M.Heap}
    {events : List M.Event} (hexec : M.exec i.word s.frame = .goes none f events) :
    step m s = .go { s with pc := i.nextOffset, frame := f, trace := s.trace ++ events } := by
  have hpass : pass m s i [] =
      .go { s with pc := i.nextOffset, frame := f, trace := s.trace ++ events } := by
    unfold pass
    simp only [hexec]
    rfl
  unfold step
  rw [hfetch]
  show perform m s i = _
  unfold perform
  rcases hgoes with hflow | hflow
  · rw [hflow]
    exact hpass
  · rw [hflow]
    exact hpass

/-- What some instructions do, one after the other. -/
inductive Does (M : Machine) : List (Instruction Offset) → Frame M.Value M.Heap →
    Frame M.Value M.Heap → List M.Event → Prop where
  | nil (f : Frame M.Value M.Heap) : Does M [] f f []
  | cons {i : Instruction Offset} {is : List (Instruction Offset)}
      {f f' f'' : Frame M.Value M.Heap} {events events' : List M.Event} :
      GoesOn i → M.exec i.word f = .goes none f' events → Does M is f' f'' events' →
        Does M (i :: is) f f'' (events ++ events')

theorem Does.append {is is' : List (Instruction Offset)} {f f' f'' : Frame M.Value M.Heap}
    {events events' : List M.Event} (h : Does M is f f' events) (h' : Does M is' f' f'' events') :
    Does M (is ++ is') f f'' (events ++ events') := by
  induction h with
  | nil => exact h'
  | cons hgoes hexec _ ih =>
    rw [List.append_assoc]
    exact .cons hgoes hexec (ih h')

/-- Loading some locals puts them on the stack, the last one on top. -/
theorem does_loads {slots : List UInt16} {is : List (Instruction Offset)}
    (his : is.map Instruction.act = slots.map fun slot => (Instruction.loadLocal slot).act)
    (stack : List M.Value) (locals : UInt16 → M.Value) (heap : M.Heap) :
    Does M is ⟨stack, locals, heap⟩ ⟨(slots.map locals).reverse ++ stack, locals, heap⟩ [] := by
  induction slots generalizing is stack with
  | nil =>
    obtain rfl := List.map_eq_nil_iff.mp his
    exact .nil _
  | cons slot slots ih =>
    obtain ⟨i, is, rfl, hi, his⟩ := List.map_eq_cons_iff.mp his
    rw [List.map_cons, List.reverse_cons, List.append_assoc]
    exact .cons (goesOn_loadLocal hi) (exec_loadLocal hi) (ih his _)

/-- A run passes straight code as its instructions say. -/
theorem reaches_straight {m : Method} {before is after : List (Instruction Offset)}
    {j : Instruction Offset} (hcode : m.code = before ++ (is ++ j :: after))
    (hcont : Contiguous 0 m.code) (hend : codeEnd 0 m.code ≤ Offset.last)
    {f f' : Frame M.Value M.Heap} {events : List M.Event} (hdoes : Does M is f f' events)
    {pc : Offset} (hpc : (is ++ j :: after).head?.map Instruction.offset = some pc)
    (active : List (Active M.Value)) (trace : List M.Event) :
    Reaches m ⟨pc, f, active, trace⟩ ⟨j.offset, f', active, trace ++ events⟩ := by
  induction hdoes generalizing before pc trace with
  | nil f =>
    obtain rfl : j.offset = pc := Option.some.inj hpc
    rw [List.append_nil]
    exact .refl _
  | @cons i is f f' f'' events events' hgoes hexec _ ih =>
    obtain rfl : i.offset = pc := Option.some.inj hpc
    have hmem : i ∈ m.code := by rw [hcode]; simp
    -- the next instruction, whichever it is
    have hnext : (is ++ j :: after).head?.map Instruction.offset = some i.nextOffset := by
      rcases hrest : is ++ j :: after with - | ⟨k, rest⟩
      · simp at hrest
      · rw [List.cons_append, hrest] at hcode
        rw [hcode] at hcont hend
        have hi : (before ++ i :: k :: rest)[before.length]? = some i := by simp
        have hk : (before ++ i :: k :: rest)[before.length + 1]? = some k := by simp
        rw [nextOffset_eq_offset hcont hend hi hk]
        rfl
    rw [← List.append_assoc]
    refine .go (step_straight (Method.fetch_of_mem hcont hmem) hgoes hexec) ?_
    have hcode' : m.code = (before ++ [i]) ++ (is ++ j :: after) := by rw [hcode]; simp
    exact ih hcode' hnext (trace ++ events)

end Machine

end CilProbe
