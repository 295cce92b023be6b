/-
CilProbe/Proofs/Check/Effects.lean

What an instruction does to the stack depends on what it says only, not on where it
stands or which form a branch is written in (`stackEffect_of_act`).  The injected code
says things whose effect is known: it moves values one at a time (`Straight`), and
calls helpers whose signatures the library made.
-/
import CilProbe.Check.Stack
import CilProbe.Engine.HelperTokens
import CilProbe.Proofs.Probe.Acts

namespace CilProbe

namespace Check

variable {callSites : CallSites} {returnsValue : Bool} {i j : Instruction Offset}

/-! ### What an effect depends on -/

theorem opcode_eq_iff {op op' : Opcode} (h : op.longForm = op'.longForm) (target : Opcode)
    (htarget : target.longForm = target ∧ ¬target.isBranch) : op = target ↔ op' = target := by
  have hlong : ∀ {op : Opcode}, op = target ↔ op.longForm = target := by
    intro op
    constructor
    · rintro rfl
      exact htarget.1
    · exact fun h => Opcode.eq_of_longForm_eq h htarget.2
  rw [hlong, h, ← hlong]

theorem flow_of_act {f : Offset → Offset} (h : j.act = i.act.map f) :
    j.opcode.info.flow = i.opcode.info.flow := by
  have hop : j.opcode.longForm = i.opcode.longForm := congrArg Act.opcode h
  rw [← Opcode.flow_longForm, hop, Opcode.flow_longForm]

/-- Instructions that say the same, up to their targets, have the same effect. -/
theorem stackEffect_of_act {f : Offset → Offset} (h : j.act = i.act.map f) {e : StackEffect} :
    stackEffect callSites returnsValue j = .ok e ↔
      stackEffect callSites returnsValue i = .ok e := by
  have hop : j.opcode.longForm = i.opcode.longForm := congrArg Act.opcode h
  have hoperand : j.operand = i.operand.map f := congrArg Act.operand h
  have hpops : j.opcode.info.pops = i.opcode.info.pops := by
    rw [← Opcode.pops_longForm, hop, Opcode.pops_longForm]
  have hpushes : j.opcode.info.pushes = i.opcode.info.pushes := by
    rw [← Opcode.pushes_longForm, hop, Opcode.pushes_longForm]
  have htoken : j.token? = i.token? := by
    unfold Instruction.token?
    rw [hoperand]
    rcases i.operand <;> rfl
  have hret := opcode_eq_iff hop Opcode.ret (by decide +kernel)
  have hcall : ∀ s, callEffect j.opcode s = callEffect i.opcode s := by
    intro s
    unfold callEffect
    simp only [opcode_eq_iff hop Opcode.newobj (by decide +kernel),
      opcode_eq_iff hop Opcode.calli (by decide +kernel)]
  -- a rejection names the position, which may differ; a signature does not
  have hsignature : ∀ s, calledSignature callSites j = .ok s ↔
      calledSignature callSites i = .ok s := by
    intro s
    unfold calledSignature
    rw [htoken]
    rcases i.token? with - | token
    · simp [reject]
    · rcases hsite : callSites token with e | s' <;> simp [hsite, reject]
  unfold stackEffect
  rw [hpops, hpushes]
  split
  · rfl
  · simp only [hret]
    split
    · rfl
    · simp only [bind_eq_ok, pure_eq_ok, hsignature, hcall]

/-! ### Instructions that go on to the next one -/

/-- An instruction goes on to the next one and has a known effect. -/
structure Straight (callSites : CallSites) (returnsValue : Bool) (i : Instruction Offset)
    (e : StackEffect) : Prop where
  effect : stackEffect callSites returnsValue i = .ok e
  successors : successors i = [i.nextOffset]
  flow : i.opcode.info.flow ≠ .leave ∧ i.opcode.info.flow ≠ .ret

theorem effect_of_slots {pops pushes : Nat} (hpops : i.act.opcode.info.pops = .slots pops)
    (hpushes : i.act.opcode.info.pushes = .slots pushes) :
    stackEffect callSites returnsValue i = .ok ⟨.ofNat pops, .ofNat pushes⟩ := by
  have hpops' : i.opcode.info.pops = .slots pops := by
    rw [← Opcode.pops_longForm]
    exact hpops
  have hpushes' : i.opcode.info.pushes = .slots pushes := by
    rw [← Opcode.pushes_longForm]
    exact hpushes
  unfold stackEffect
  rw [hpops', hpushes']

theorem straight_of_sequential (hflow : i.act.opcode.info.flow = .sequential) {pops pushes : Nat}
    (hpops : i.act.opcode.info.pops = .slots pops)
    (hpushes : i.act.opcode.info.pushes = .slots pushes) :
    Straight callSites returnsValue i ⟨.ofNat pops, .ofNat pushes⟩ := by
  have hflow' : i.opcode.info.flow = .sequential := by
    rw [← Opcode.flow_longForm]
    exact hflow
  refine ⟨effect_of_slots hpops hpushes, ?_, ?_⟩
  · unfold Check.successors
    rw [hflow']
  · rw [hflow']
    decide

theorem straight_of_moves {op : Opcode} {kind : OperandKind} {pops pushes : Nat}
    (h : Instruction.Moves op kind pops pushes) (hi : i.act.opcode = op.longForm) :
    Straight callSites returnsValue i ⟨.ofNat pops, .ofNat pushes⟩ := by
  obtain ⟨-, -, hflow, hpops, hpushes, -⟩ := h
  refine straight_of_sequential ?_ ?_ ?_
  · rw [hi, Opcode.flow_longForm, hflow]
  · rw [hi, Opcode.pops_longForm, hpops]
  · rw [hi, Opcode.pushes_longForm, hpushes]

theorem straight_storeLocal {slot : UInt16} (hi : i.act = (Instruction.storeLocal slot).act) :
    Straight callSites returnsValue i ⟨1, 0⟩ := by
  obtain ⟨kind, hmoves, -⟩ := Instruction.storeLocal_cases (τ := Offset) slot
  exact straight_of_moves hmoves (congrArg Act.opcode hi)

theorem straight_loadLocal {slot : UInt16} (hi : i.act = (Instruction.loadLocal slot).act) :
    Straight callSites returnsValue i ⟨0, 1⟩ := by
  obtain ⟨kind, hmoves, -⟩ := Instruction.loadLocal_cases (τ := Offset) slot
  exact straight_of_moves hmoves (congrArg Act.opcode hi)

theorem straight_ldc {value : Int32} (hi : i.act = ⟨Opcode.ldc, .int32 value⟩) :
    Straight callSites returnsValue i ⟨0, 1⟩ := by
  have hinfo := Opcode.info_of_info? Opcode.info?_ldc
  have hop : i.act.opcode = Opcode.ldc := congrArg Act.opcode hi
  have hpops : i.act.opcode.info.pops = .slots 0 := by rw [hop, hinfo]
  have hpushes : i.act.opcode.info.pushes = .slots 1 := by rw [hop, hinfo]
  exact straight_of_sequential (by rw [hop, hinfo]) hpops hpushes

/-! ### Returns -/

/-- A return takes the value returned, if there is one. -/
theorem stackEffect_ret (hi : i.opcode = Opcode.ret) :
    stackEffect callSites returnsValue i = .ok ⟨if returnsValue then 1 else 0, 0⟩ := by
  have hinfo := Opcode.info_of_info? Opcode.info?_ret
  unfold stackEffect
  rw [hi, hinfo]
  rfl

/-! ### Calls -/

/-- A call of something with a known signature. -/
theorem straight_call {token : Token} {signature : MethodSig}
    (hi : i.act = ⟨Opcode.call, .token token⟩) (hsite : callSites token = .ok signature) :
    Straight callSites returnsValue i
      ⟨.ofNat signature.stackPops, if signature.ret.isVoid then 0 else 1⟩ := by
  have hinfo := Opcode.info_of_info? Opcode.info?_call
  have hop : i.opcode = Opcode.call :=
    Opcode.eq_of_longForm_eq (congrArg Act.opcode hi) (by decide +kernel)
  have hoperand : i.operand = .token token := congrArg Act.operand hi
  constructor
  case effect =>
    unfold stackEffect calledSignature Instruction.token?
    rw [hop, hinfo, hoperand]
    simp only
    rw [hsite, if_neg (by decide)]
    refine bind_eq_ok.mpr ⟨signature, rfl, ?_⟩
    unfold callEffect
    rw [if_neg (by decide), if_neg (by decide)]
    rfl
  case successors =>
    unfold Check.successors
    rw [hop, hinfo]
  case flow =>
    rw [hop, hinfo]
    decide

theorem straight_enter {token : Token} (hi : i.act = ⟨Opcode.call, .token token⟩)
    (hsite : callSites token = .ok HelperRef.enterSignature) :
    Straight callSites returnsValue i ⟨1, 1⟩ :=
  straight_call hi hsite

theorem hasThis_static (ret : TypeSig) (params : List TypeSig) :
    (MethodSig.static ret params).hasThis = false := by
  have hmark : MethodSig.hasMark 0 MethodSig.thisMark = false := by decide +kernel
  show (MethodSig.hasMark 0 MethodSig.thisMark && _) = false
  rw [hmark]
  rfl

/-- The exit helper takes the value returned, if there is one, and two more. -/
theorem stackPops_exitSignature {value : Option TypeSig}
    (hvalue : ∀ t ∈ value, t.isSentinel = false) :
    (HelperRef.exitSignature value).stackPops = if value.isSome then 3 else 2 := by
  rcases value with - | t
  · rfl
  · show (MethodSig.static _ [t, .primitive .object, .primitive .i8]).stackPops = 3
    rw [MethodSig.stackPops, hasThis_static]
    unfold MethodSig.arity TypeSig.countParams MethodSig.static
    rw [List.countP_cons, hvalue t rfl]
    rfl

theorem straight_exit {token : Token} {value : Option TypeSig}
    (hi : i.act = ⟨Opcode.call, .token token⟩) (hvalue : ∀ t ∈ value, t.isSentinel = false)
    (hsite : callSites token = .ok (HelperRef.exitSignature value)) :
    Straight callSites returnsValue i ⟨if value.isSome then 3 else 2, 0⟩ := by
  have h : Straight callSites returnsValue i _ := straight_call hi hsite
  rw [stackPops_exitSignature hvalue] at h
  rcases value with - | t
  · exact h
  · exact h

end Check

end CilProbe
