/-
CilProbe/Proofs/Cil/Injected.lean

The instructions that probes are made of: what the table says about the codes with
a role of their own, and the instructions that move a value between the stack and
a local.  Whichever of its three forms is the shortest, such an instruction is
known to the table, goes on to the next one, moves one value, and is about the
local it was made for.
-/
import CilProbe.Proofs.Cil.Operands

namespace CilProbe

/-! ### Codes with a role of their own -/

namespace Opcode

theorem info?_ldc :
    ldc.info? = some ⟨0x20, "ldc.i4", .int32, .sequential, .slots 0, .slots 1⟩ :=
  rfl

theorem info?_call : call.info? = some ⟨0x28, "call", .token, .call, .signature, .signature⟩ :=
  rfl

theorem info?_ret : ret.info? = some ⟨0x2A, "ret", .none, .ret, .signature, .slots 0⟩ :=
  rfl

theorem info?_leave : leave.info? = some ⟨0xDD, "leave", .branch, .leave, .slots 0, .slots 0⟩ := by
  decide +kernel

theorem info?_endfinally :
    endfinally.info? = some ⟨0xDC, "endfinally", .none, .endFinally, .slots 0, .slots 0⟩ := by
  decide +kernel

theorem info?_rethrow :
    rethrow.info? = some ⟨0xFE1A, "rethrow", .none, .throws, .slots 0, .slots 0⟩ :=
  rfl

end Opcode

namespace Instruction

variable {τ σ : Type}

/-- An instruction with the operand that the table asks for is known. -/
theorem known_of_info? {i : Instruction τ} {info : OpcodeInfo}
    (h : i.opcode.info? = some info) (hkind : i.operand.HasKind info.operand) : i.Known := by
  have hinfo := Opcode.info_of_info? h
  exact ⟨hinfo ▸ h, hinfo ▸ hkind⟩

/-! ### The three forms -/

/-- What the table must say about an instruction that moves a value. -/
def Moves (op : Opcode) (kind : OperandKind) (pops pushes : Nat) : Prop :=
  op.info? = some op.info ∧ op.info.operand = kind ∧ op.info.flow = .sequential ∧
    op.info.pops = .slots pops ∧ op.info.pushes = .slots pushes ∧ op.isBranch = false

instance (op : Opcode) (kind : OperandKind) (pops pushes : Nat) :
    Decidable (Moves op kind pops pushes) := by
  unfold Moves
  infer_instance

theorem moves_storeShortest :
    ∀ n < 4, Moves ⟨UInt16.ofNat (Opcode.stloc0.code.toNat + n)⟩ .none 1 0 := by decide

theorem moves_loadShortest :
    ∀ n < 4, Moves ⟨UInt16.ofNat (Opcode.ldloc0.code.toNat + n)⟩ .none 0 1 := by decide

theorem moves_stlocShort : Moves Opcode.stlocShort .shortVar 1 0 := by decide

theorem moves_stloc : Moves Opcode.stloc .var 1 0 := by decide

theorem moves_ldlocShort : Moves Opcode.ldlocShort .shortVar 0 1 := by decide

theorem moves_ldloc : Moves Opcode.ldloc .var 0 1 := by decide

/-- The shortest store to a local moves one value from the stack, and its operand is
of the right kind. -/
theorem storeLocal_cases (slot : UInt16) :
    ∃ kind, Moves (storeLocal slot : Instruction τ).opcode kind 1 0 ∧
      (storeLocal slot : Instruction τ).operand.HasKind kind ∧
      (storeLocal slot : Instruction τ).operand.targets = [] := by
  unfold storeLocal
  split
  · next hle => exact ⟨.none, moves_storeShortest _ (Nat.lt_succ_of_le hle), trivial, rfl⟩
  · split
    · exact ⟨.shortVar, moves_stlocShort, trivial, rfl⟩
    · exact ⟨.var, moves_stloc, trivial, rfl⟩

theorem loadLocal_cases (slot : UInt16) :
    ∃ kind, Moves (loadLocal slot : Instruction τ).opcode kind 0 1 ∧
      (loadLocal slot : Instruction τ).operand.HasKind kind ∧
      (loadLocal slot : Instruction τ).operand.targets = [] := by
  unfold loadLocal
  split
  · next hle => exact ⟨.none, moves_loadShortest _ (Nat.lt_succ_of_le hle), trivial, rfl⟩
  · split
    · exact ⟨.shortVar, moves_ldlocShort, trivial, rfl⟩
    · exact ⟨.var, moves_ldloc, trivial, rfl⟩

theorem known_of_moves {i : Instruction τ} {kind : OperandKind} {pops pushes : Nat}
    (h : Moves i.opcode kind pops pushes) (hkind : i.operand.HasKind kind) : i.Known :=
  ⟨h.1, h.2.1 ▸ hkind⟩

theorem known_storeLocal (slot : UInt16) : (storeLocal slot : Instruction τ).Known := by
  obtain ⟨kind, hmoves, hkind, -⟩ := storeLocal_cases (τ := τ) slot
  exact known_of_moves hmoves hkind

theorem known_loadLocal (slot : UInt16) : (loadLocal slot : Instruction τ).Known := by
  obtain ⟨kind, hmoves, hkind, -⟩ := loadLocal_cases (τ := τ) slot
  exact known_of_moves hmoves hkind

/-! ### No targets -/

@[simp] theorem map_storeLocal (f : τ → σ) (slot : UInt16) :
    (storeLocal slot : Instruction τ).map f = storeLocal slot := by
  unfold storeLocal
  split
  · rfl
  · split <;> rfl

@[simp] theorem map_loadLocal (f : τ → σ) (slot : UInt16) :
    (loadLocal slot : Instruction τ).map f = loadLocal slot := by
  unfold loadLocal
  split
  · rfl
  · split <;> rfl

/-! ### Which local -/

theorem toNat_shortest (base : UInt16) {n : Nat} (hbase : base.toNat < 0x100) (hn : n ≤ 3) :
    (UInt16.ofNat (base.toNat + n)).toNat = base.toNat + n := by
  rw [UInt16.toNat_ofNat']
  exact Nat.mod_eq_of_lt (by omega)

theorem toUInt16_toUInt8 {slot : UInt16} (h : slot.toNat ≤ 255) : slot.toUInt8.toUInt16 = slot := by
  apply UInt16.toNat_inj.mp
  rw [UInt8.toNat_toUInt16, UInt16.toNat_toUInt8]
  omega

theorem storedLocal?_storeLocal (slot : UInt16) :
    (storeLocal slot : Instruction τ).storedLocal? = some slot := by
  unfold storeLocal
  split
  · next hle =>
    have hcode := toNat_shortest Opcode.stloc0.code (by decide) hle
    have hten : Opcode.stloc0.code.toNat = 0x0A := rfl
    simp only [storedLocal?, new, hcode]
    rw [hten, if_pos (by omega), Nat.add_sub_cancel_left, UInt16.ofNat_toNat]
  · split
    · next hle => simp [storedLocal?, new, Opcode.stlocShort, toUInt16_toUInt8 hle]
    · simp [storedLocal?, new, Opcode.stloc]

theorem loadedLocal?_loadLocal (slot : UInt16) :
    (loadLocal slot : Instruction τ).loadedLocal? = some slot := by
  unfold loadLocal
  split
  · next hle =>
    have hcode := toNat_shortest Opcode.ldloc0.code (by decide) hle
    have hsix : Opcode.ldloc0.code.toNat = 0x06 := rfl
    simp only [loadedLocal?, new, hcode]
    rw [hsix, if_pos (by omega), Nat.add_sub_cancel_left, UInt16.ofNat_toNat]
  · split
    · next hle => simp [loadedLocal?, new, Opcode.ldlocShort, toUInt16_toUInt8 hle]
    · simp [loadedLocal?, new, Opcode.ldloc]

theorem storedLocal?_loadLocal (slot : UInt16) :
    (loadLocal slot : Instruction τ).storedLocal? = none := by
  unfold loadLocal
  split
  · next hle =>
    have hcode := toNat_shortest Opcode.ldloc0.code (by decide) hle
    have hsix : Opcode.ldloc0.code.toNat = 0x06 := rfl
    simp only [storedLocal?, new, hcode]
    rw [hsix, if_neg (by omega)]
  · split
    · rfl
    · rfl

theorem loadedLocal?_storeLocal (slot : UInt16) :
    (storeLocal slot : Instruction τ).loadedLocal? = none := by
  unfold storeLocal
  split
  · next hle =>
    have hcode := toNat_shortest Opcode.stloc0.code (by decide) hle
    have hten : Opcode.stloc0.code.toNat = 0x0A := rfl
    simp only [loadedLocal?, new, hcode]
    rw [hten, if_neg (by omega)]
  · split
    · rfl
    · rfl

/-- A branch is about no local. -/
theorem local?_of_isBranch {i : Instruction τ} (h : i.opcode.isBranch) :
    i.storedLocal? = none ∧ i.loadedLocal? = none := by
  have hcode : 0x2B ≤ i.opcode.code.toNat ∧ i.opcode.code.toNat ≤ 0xDE := by
    simp only [Opcode.isBranch, Bool.or_eq_true, Bool.and_eq_true, decide_eq_true_eq,
      beq_iff_eq] at h
    omega
  have hne : ∀ op : Opcode, op.code.toNat < 0x2B ∨ 0xDE < op.code.toNat → i.opcode ≠ op := by
    rintro op hop rfl
    omega
  unfold storedLocal? loadedLocal?
  simp only
  rw [if_neg (by omega), if_neg (by omega)]
  constructor
  · split
    · exact if_neg (hne _ (.inl (by decide)))
    · exact if_neg (hne _ (.inr (by decide)))
    · rfl
  · split
    · exact if_neg (hne _ (.inl (by decide)))
    · exact if_neg (hne _ (.inr (by decide)))
    · rfl

/-- Which local an instruction is about is a matter of what it says. -/
theorem local?_congr {i j : Instruction τ} (h : i.act = j.act) :
    i.storedLocal? = j.storedLocal? ∧ i.loadedLocal? = j.loadedLocal? := by
  have hop : i.opcode.longForm = j.opcode.longForm := congrArg Act.opcode h
  have hoperand : i.operand = j.operand := congrArg Act.operand h
  by_cases hbranch : i.opcode.isBranch
  · have hbranch' : j.opcode.isBranch := by
      rw [← Opcode.isBranch_longForm, ← hop, Opcode.isBranch_longForm]
      exact hbranch
    obtain ⟨hi, hi'⟩ := local?_of_isBranch hbranch
    obtain ⟨hj, hj'⟩ := local?_of_isBranch hbranch'
    exact ⟨hi.trans hj.symm, hi'.trans hj'.symm⟩
  · have heq : j.opcode = i.opcode := by
      refine Opcode.eq_of_longForm_eq ?_ hbranch
      rw [← hop, Opcode.longForm_of_not_isShortBranch]
      exact fun hshort => hbranch (Opcode.isBranch_of_isShortBranch hshort)
    unfold storedLocal? loadedLocal?
    rw [heq, hoperand]
    exact ⟨rfl, rfl⟩

end Instruction

end CilProbe
