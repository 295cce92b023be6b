/-
CilProbe/Proofs/Probe/Acts.lean

What the injected code says, and what becomes of an instruction when its method is
instrumented (`imageActs`).  Targets may be of any type, so that the same words
serve for a listing, where they are bindings, and for the code written from it,
where they are positions; the `_map` lemmas go from one to the other.
-/
import CilProbe.Probe.Draft
import CilProbe.Proofs.Cil.Injected

namespace CilProbe

variable {τ σ : Type}

/-! ### What the injected code says -/

/-- What the exit probe is made with. -/
structure ExitPlan where
  /-- The locals it uses. -/
  slots : ExitSlots
  /-- The exit helper. -/
  exit : Token
  /-- The class of all exceptions, where those are observed. -/
  exceptionType : Option Token

/-- The entry probe: call the helper with the method's token and keep its answer. -/
def entryActs (method enter : Token) (answerSlot : UInt16) : List (Act τ) :=
  [⟨Opcode.ldc, .int32 method.value.toInt32⟩, ⟨Opcode.call, .token enter⟩,
    (Instruction.storeLocal answerSlot).act]

namespace ExitPlan

/-- A return: store the value, if there is one, and leave to the epilogue. -/
def returnActs (p : ExitPlan) (epilogue : τ) : List (Act τ) :=
  (p.slots.value.map fun slot => (Instruction.storeLocal slot).act).toList ++
    [⟨Opcode.leave, .target epilogue⟩]

/-- The catch handler, where exceptions are observed: store the exception and throw
it on. -/
def catchActs (p : ExitPlan) : List (Act τ) :=
  if p.exceptionType.isSome then
    [(Instruction.storeLocal p.slots.exception).act, ⟨Opcode.rethrow, .none⟩]
  else []

/-- The finally handler: call the exit helper. -/
def finallyActs (p : ExitPlan) (answerSlot : UInt16) : List (Act τ) :=
  (p.slots.value.map fun slot => (Instruction.loadLocal slot).act).toList ++
    [(Instruction.loadLocal p.slots.exception).act, (Instruction.loadLocal answerSlot).act,
      ⟨Opcode.call, .token p.exit⟩, ⟨Opcode.endfinally, .none⟩]

/-- The epilogue: load the value, if there is one, and return. -/
def epilogueActs (p : ExitPlan) : List (Act τ) :=
  (p.slots.value.map fun slot => (Instruction.loadLocal slot).act).toList ++ [⟨Opcode.ret, .none⟩]

end ExitPlan

/-- What becomes of an instruction: a return goes to the epilogue instead, if there
is an exit probe, and any other instruction stays, with its targets moved. -/
def imageActs (plan : Option ExitPlan) (move : Offset → τ) (epilogue : τ) (i : Instruction Offset) :
    List (Act τ) :=
  match plan with
  | some p => if i.opcode = Opcode.ret then p.returnActs epilogue else [i.act.map move]
  | none => [i.act.map move]

/-- An instruction stays, or it is a return that is redirected. -/
theorem imageActs_cases (plan : Option ExitPlan) (move : Offset → τ) (epilogue : τ)
    (i : Instruction Offset) :
    imageActs plan move epilogue i = [i.act.map move] ∨
      ∃ p, plan = some p ∧ i.opcode = Opcode.ret ∧
        imageActs plan move epilogue i = p.returnActs epilogue := by
  unfold imageActs
  rcases plan with - | p
  · exact .inl rfl
  · simp only
    split
    · next hret => exact .inr ⟨p, rfl, hret, rfl⟩
    · exact .inl rfl

theorem act_storeLocal_map (f : τ → σ) (slot : UInt16) :
    (Instruction.storeLocal slot : Instruction τ).act.map f =
      (Instruction.storeLocal slot).act := by
  rw [← Instruction.act_map, Instruction.map_storeLocal]

theorem act_loadLocal_map (f : τ → σ) (slot : UInt16) :
    (Instruction.loadLocal slot : Instruction τ).act.map f =
      (Instruction.loadLocal slot).act := by
  rw [← Instruction.act_map, Instruction.map_loadLocal]

section Renaming

variable (f : τ → σ) (p : ExitPlan) (answerSlot : UInt16)

theorem entryActs_map (method enter : Token) :
    (entryActs method enter answerSlot).map (Act.map f) = entryActs method enter answerSlot := by
  simp only [entryActs, List.map_cons, List.map_nil, act_storeLocal_map]
  rfl

theorem ExitPlan.returnActs_map (epilogue : τ) :
    (p.returnActs epilogue).map (Act.map f) = p.returnActs (f epilogue) := by
  unfold returnActs
  rcases p.slots.value with - | slot
  · rfl
  · simp only [Option.map_some, Option.toList_some, List.cons_append, List.nil_append,
      List.map_cons, List.map_nil, act_storeLocal_map]
    rfl

theorem ExitPlan.catchActs_map : p.catchActs.map (Act.map f) = p.catchActs := by
  unfold catchActs
  split
  · simp only [List.map_cons, List.map_nil, act_storeLocal_map]
    rfl
  · rfl

theorem ExitPlan.finallyActs_map :
    (p.finallyActs answerSlot).map (Act.map f) = p.finallyActs answerSlot := by
  unfold finallyActs
  rcases p.slots.value with - | slot
  · simp only [Option.map_none, Option.toList_none, List.nil_append, List.map_cons, List.map_nil,
      act_loadLocal_map]
    rfl
  · simp only [Option.map_some, Option.toList_some, List.cons_append, List.nil_append,
      List.map_cons, List.map_nil, act_loadLocal_map]
    rfl

theorem ExitPlan.epilogueActs_map : p.epilogueActs.map (Act.map f) = p.epilogueActs := by
  unfold epilogueActs
  rcases p.slots.value with - | slot
  · rfl
  · simp only [Option.map_some, Option.toList_some, List.cons_append, List.nil_append,
      List.map_cons, List.map_nil, act_loadLocal_map]
    rfl

theorem imageActs_map (plan : Option ExitPlan) {υ : Type} (move : Offset → υ) (epilogue : υ)
    (g : υ → σ) (i : Instruction Offset) :
    (imageActs plan move epilogue i).map (Act.map g) =
      imageActs plan (g ∘ move) (g epilogue) i := by
  unfold imageActs
  rcases plan with - | p
  · rw [List.map_cons, List.map_nil, Act.map_map]
  · simp only
    split
    · exact p.returnActs_map g epilogue
    · rw [List.map_cons, List.map_nil, Act.map_map]

end Renaming

/-! ### No targets -/

/-- What can be said without targets has none. -/
theorem targets_of_map_empty {bs : List (Act τ)} (as : List (Act Empty))
    (h : as.map (Act.map Empty.elim) = bs) : ∀ b ∈ bs, b.operand.targets = [] := by
  intro b hb
  rw [← h] at hb
  obtain ⟨a, -, rfl⟩ := List.mem_map.mp hb
  show (a.operand.map Empty.elim).targets = []
  rw [Operand.targets_map]
  rcases a.operand.targets with - | ⟨t, -⟩
  · rfl
  · exact t.elim

theorem targets_storeLocal (slot : UInt16) :
    (Instruction.storeLocal slot : Instruction τ).act.operand.targets = [] :=
  targets_of_map_empty [(Instruction.storeLocal slot).act] rfl _
    (List.mem_singleton.mpr (act_storeLocal_map Empty.elim slot).symm)

/-- The targets of what an instruction becomes are its own, moved, or the epilogue. -/
theorem targets_imageActs {plan : Option ExitPlan} {move : Offset → τ} {epilogue : τ}
    {i : Instruction Offset} {a : Act τ} (ha : a ∈ imageActs plan move epilogue i) :
    ∀ t ∈ a.operand.targets,
      (∃ u ∈ i.operand.targets, move u = t) ∨ plan.isSome ∧ t = epilogue := by
  intro t ht
  have hsame : a = i.act.map move → ∃ u ∈ i.operand.targets, move u = t := by
    rintro rfl
    rw [show (i.act.map move).operand = i.operand.map move from rfl, Operand.targets_map] at ht
    exact List.mem_map.mp ht
  unfold imageActs at ha
  rcases plan with - | p
  · exact .inl (hsame (List.mem_singleton.mp ha))
  · simp only at ha
    split at ha
    · rw [ExitPlan.returnActs, List.mem_append] at ha
      rcases ha with ha | ha
      · obtain ⟨slot, -, rfl⟩ := Option.map_eq_some_iff.mp (Option.mem_toList.mp ha)
        rw [targets_storeLocal] at ht
        cases ht
      · obtain rfl := List.mem_singleton.mp ha
        exact .inr ⟨rfl, List.mem_singleton.mp ht⟩
    · exact .inl (hsame (List.mem_singleton.mp ha))

end CilProbe
