/-
CilProbe/Proofs/Cil/Opcodes.lean

The opcode table and the two forms of branches.  What `info?` finds for a code
stands in the table and is the code's own (`mem_table_of_info?`,
`code_of_info?`), so a fact about all codes is one about the entries of the
table.  A branch and its other form differ only in how their displacement is
written: flow and stack use are the same (`flow_longForm`,
`pops_longForm`, `pushes_longForm`), and a code is a branch exactly if its
operand is a displacement (`isBranch_iff`).
-/
import CilProbe.Cil.OpcodeTable
import Mathlib.Tactic.MkIffOfInductiveProp

namespace CilProbe

namespace Opcode

/-! ### Looking codes up -/

/-- The description found for a code is the code's own. -/
theorem code_of_info? {op : Opcode} {info : OpcodeInfo} (h : op.info? = some info) :
    info.code = op.code := by
  unfold info? at h
  have heq := List.find?_some h
  exact eq_of_beq heq

theorem mem_of_info? {op : Opcode} {info : OpcodeInfo} (h : op.info? = some info) :
    info ∈ if op.isTwoByte then OpcodeInfo.twoByte else OpcodeInfo.oneByte := by
  unfold info? at h
  exact List.mem_of_find?_eq_some h

theorem info_of_info? {op : Opcode} {info : OpcodeInfo} (h : op.info? = some info) :
    op.info = info := by
  unfold Opcode.info
  rw [h]
  rfl

theorem mem_table_of_info? {op : Opcode} {info : OpcodeInfo} (h : op.info? = some info) :
    info ∈ OpcodeInfo.oneByte ++ OpcodeInfo.twoByte := by
  have hmem := mem_of_info? h
  split at hmem
  · exact List.mem_append_right _ hmem
  · exact List.mem_append_left _ hmem

theorem code_of_flow_ret :
    ∀ info ∈ OpcodeInfo.oneByte ++ OpcodeInfo.twoByte, info.flow = .ret →
      info.code = Opcode.ret.code := by
  decide +kernel

/-- Nothing but a return returns. -/
theorem eq_ret_of_flow {op : Opcode} (h : op.info.flow = .ret) : op = ret := by
  rcases hinfo : op.info? with - | info
  · rw [info, hinfo] at h
    cases h
  · rw [info_of_info? hinfo] at h
    have hret := code_of_flow_ret info (mem_table_of_info? hinfo) h
    have hcode := (code_of_info? hinfo).symm.trans hret
    exact congrArg Opcode.mk hcode

/-! ### Codes as bytes -/

theorem code_oneByte :
    ∀ info ∈ OpcodeInfo.oneByte, info.code.toNat < 0x100 ∧ info.code.toNat ≠ 0xFE := by
  decide +kernel

/-- A known code of one byte is not taken for the start of a longer one. -/
theorem code_of_not_isTwoByte {op : Opcode} {info : OpcodeInfo} (h : op.info? = some info)
    (ht : ¬op.isTwoByte) : op.code.toNat < 0x100 ∧ op.code.toNat ≠ 0xFE := by
  have hm := mem_of_info? h
  rw [if_neg ht] at hm
  rw [← code_of_info? h]
  exact code_oneByte info hm

theorem ofBytes_of_isTwoByte {op : Opcode} (h : op.isTwoByte) :
    ofBytes escape op.code.toUInt8 = op := by
  obtain ⟨code⟩ := op
  have hlt := code.toNat_lt
  have hdiv : code.toNat / 0x100 = 0xFE := by simpa [isTwoByte, escape] using h
  have hnat : escape.toNat * 0x100 + code.toUInt8.toNat = code.toNat := by
    rw [UInt16.toNat_toUInt8, show escape.toNat = 0xFE from rfl]
    omega
  unfold ofBytes
  rw [hnat, UInt16.ofNat_toNat]

theorem ofBytes_zero {op : Opcode} (h : op.code.toNat < 0x100) :
    ofBytes 0 op.code.toUInt8 = op := by
  obtain ⟨code⟩ := op
  have hnat : (0 : UInt8).toNat * 0x100 + code.toUInt8.toNat = code.toNat := by
    rw [UInt16.toNat_toUInt8, show (0 : UInt8).toNat = 0 from rfl]
    have : code.toNat < 0x100 := h
    omega
  unfold ofBytes
  rw [hnat, UInt16.ofNat_toNat]

/-- Two bytes of which the first is the escape are a code of two bytes. -/
theorem bytes_ofBytes_escape (b : UInt8) : (ofBytes escape b).bytes = [escape, b] := by
  have hb := b.toNat_lt
  have hnat : (ofBytes escape b).code.toNat = 0xFE00 + b.toNat := by
    show (UInt16.ofNat (0xFE * 0x100 + b.toNat)).toNat = _
    rw [UInt16.toNat_ofNat']
    omega
  have htwo : (ofBytes escape b).isTwoByte := by
    unfold isTwoByte
    rw [hnat, show escape.toNat = 0xFE from rfl, beq_iff_eq]
    omega
  have hlow : (ofBytes escape b).code.toUInt8 = b := by
    apply UInt8.toNat_inj.mp
    rw [UInt16.toNat_toUInt8, hnat]
    omega
  unfold bytes
  rw [if_pos htwo, hlow]

theorem bytes_ofBytes_zero (b : UInt8) : (ofBytes 0 b).bytes = [b] := by
  have hb := b.toNat_lt
  have hnat : (ofBytes 0 b).code.toNat = b.toNat := by
    show (UInt16.ofNat (0 * 0x100 + b.toNat)).toNat = _
    rw [UInt16.toNat_ofNat']
    omega
  have hone : ¬(ofBytes 0 b).isTwoByte := by
    unfold isTwoByte
    rw [hnat, show escape.toNat = 0xFE from rfl, beq_iff_eq]
    omega
  have hlow : (ofBytes 0 b).code.toUInt8 = b := by
    apply UInt8.toNat_inj.mp
    rw [UInt16.toNat_toUInt8, hnat]
    omega
  unfold bytes
  rw [if_neg hone, hlow]

/-! ### Branches -/

/-- What the table says about branches: they are the codes with a displacement,
and the short ones those with a displacement of 8 bits. -/
def BranchKind (info : OpcodeInfo) : Prop :=
  ((Opcode.mk info.code).isBranch ↔ info.operand = .shortBranch ∨ info.operand = .branch) ∧
    ((Opcode.mk info.code).isShortBranch ↔ info.operand = .shortBranch)

instance (info : OpcodeInfo) : Decidable (BranchKind info) := by
  unfold BranchKind
  infer_instance

theorem branchKind_oneByte : ∀ info ∈ OpcodeInfo.oneByte, BranchKind info := by decide +kernel

theorem branchKind_twoByte : ∀ info ∈ OpcodeInfo.twoByte, BranchKind info := by decide +kernel

theorem branchKind_of_info? {op : Opcode} {info : OpcodeInfo} (h : op.info? = some info) :
    (op.isBranch ↔ info.operand = .shortBranch ∨ info.operand = .branch) ∧
      (op.isShortBranch ↔ info.operand = .shortBranch) := by
  have hop : op = ⟨info.code⟩ := by rw [code_of_info? h]
  have hm := mem_of_info? h
  rw [hop]
  split at hm
  · exact branchKind_twoByte info hm
  · exact branchKind_oneByte info hm

/-- A known code is a branch exactly if its operand is a displacement. -/
theorem isBranch_iff {op : Opcode} {info : OpcodeInfo} (h : op.info? = some info) :
    op.isBranch ↔ info.operand = .shortBranch ∨ info.operand = .branch :=
  (branchKind_of_info? h).1

theorem isShortBranch_iff {op : Opcode} {info : OpcodeInfo} (h : op.info? = some info) :
    op.isShortBranch ↔ info.operand = .shortBranch :=
  (branchKind_of_info? h).2

/-! ### Forms of branches -/

/-- What the two forms of a branch have in common, and how they differ. -/
@[mk_iff] structure Forms (short long : Opcode) : Prop where
  shortForm_long : long.shortForm = short
  shortForm_short : short.shortForm = short
  longForm_long : long.longForm = long
  longForm_short : short.longForm = long
  isBranch_long : long.isBranch
  isBranch_short : short.isBranch
  info?_long : long.info? = some long.info
  info?_short : short.info? = some short.info
  operand_long : long.info.operand = .branch
  operand_short : short.info.operand = .shortBranch
  flow : long.info.flow = short.info.flow
  pops : long.info.pops = short.info.pops
  pushes : long.info.pushes = short.info.pushes
  length_long : long.bytes.length = 1
  length_short : short.bytes.length = 1

instance (short long : Opcode) : Decidable (Forms short long) :=
  decidable_of_iff _ (forms_iff short long).symm

/-- The code words of the short branches. -/
def shortWords : List Nat := List.range' 0x2B 13 ++ [0xDE]

theorem forms_shortWords :
    ∀ n ∈ shortWords, Forms ⟨UInt16.ofNat n⟩ (longForm ⟨UInt16.ofNat n⟩) := by
  decide +kernel

theorem forms_of_isShortBranch {op : Opcode} (h : op.isShortBranch) : Forms op op.longForm := by
  obtain ⟨code⟩ := op
  have hmem : code.toNat ∈ shortWords := by
    simp only [isShortBranch, Bool.or_eq_true, Bool.and_eq_true, decide_eq_true_eq,
      beq_iff_eq] at h
    simp only [shortWords, List.mem_append, List.mem_range'_1, List.mem_singleton]
    omega
  have hf := forms_shortWords code.toNat hmem
  rwa [UInt16.ofNat_toNat] at hf

/-- A branch in its long form has a short form. -/
theorem isShortBranch_shortForm {op : Opcode} (h : op.isBranch) (hs : ¬op.isShortBranch) :
    op.shortForm.isShortBranch ∧ op.shortForm.longForm = op := by
  obtain ⟨code⟩ := op
  simp only [isBranch, isShortBranch, Bool.or_eq_true, Bool.and_eq_true, decide_eq_true_eq,
    beq_iff_eq, not_or] at h hs
  by_cases hlow : 0x38 ≤ code.toNat ∧ code.toNat ≤ 0x44
  · have hn : (UInt16.ofNat (code.toNat - 0x0D)).toNat = code.toNat - 0x0D := by
      rw [UInt16.toNat_ofNat']
      exact Nat.mod_eq_of_lt (by omega)
    have hshort : shortForm ⟨code⟩ = ⟨UInt16.ofNat (code.toNat - 0x0D)⟩ := if_pos hlow
    have hback : code.toNat - 0x0D + 0x0D = code.toNat := by omega
    rw [hshort]
    constructor
    · simp only [isShortBranch, hn, Bool.or_eq_true, Bool.and_eq_true, decide_eq_true_eq]
      omega
    · unfold longForm
      simp only [hn]
      rw [if_pos (by omega), hback, UInt16.ofNat_toNat]
  · have hdd : code.toNat = 0xDD := by omega
    have hcode : code = 0xDD := UInt16.toNat_inj.mp hdd
    subst hcode
    decide

/-- The two forms of a branch belong together. -/
theorem forms_of_isBranch {op : Opcode} (h : op.isBranch) : Forms op.shortForm op.longForm := by
  by_cases hs : op.isShortBranch
  · have hf := forms_of_isShortBranch hs
    rwa [hf.shortForm_short]
  · obtain ⟨hshort, hlong⟩ := isShortBranch_shortForm h hs
    have hf := forms_of_isShortBranch hshort
    rw [hlong] at hf
    rwa [hf.longForm_long]

/-! ### Codes that are not branches -/

theorem longForm_of_not_isShortBranch {op : Opcode} (h : ¬op.isShortBranch) :
    op.longForm = op := by
  simp only [isShortBranch, Bool.or_eq_true, Bool.and_eq_true, decide_eq_true_eq, beq_iff_eq,
    not_or] at h
  unfold longForm
  simp only
  rw [if_neg h.1, if_neg h.2]

theorem isBranch_of_isShortBranch {op : Opcode} (h : op.isShortBranch) : op.isBranch :=
  (forms_of_isShortBranch h).isBranch_short

@[simp] theorem longForm_longForm (op : Opcode) : op.longForm.longForm = op.longForm := by
  by_cases h : op.isShortBranch
  · exact (forms_of_isShortBranch h).longForm_long
  · rw [longForm_of_not_isShortBranch h, longForm_of_not_isShortBranch h]

@[simp] theorem isBranch_longForm (op : Opcode) : op.longForm.isBranch = op.isBranch := by
  by_cases h : op.isShortBranch
  · rw [(forms_of_isShortBranch h).isBranch_long, isBranch_of_isShortBranch h]
  · rw [longForm_of_not_isShortBranch h]

@[simp] theorem flow_longForm (op : Opcode) : op.longForm.info.flow = op.info.flow := by
  by_cases h : op.isShortBranch
  · exact (forms_of_isShortBranch h).flow
  · rw [longForm_of_not_isShortBranch h]

@[simp] theorem pops_longForm (op : Opcode) : op.longForm.info.pops = op.info.pops := by
  by_cases h : op.isShortBranch
  · exact (forms_of_isShortBranch h).pops
  · rw [longForm_of_not_isShortBranch h]

@[simp] theorem pushes_longForm (op : Opcode) : op.longForm.info.pushes = op.info.pushes := by
  by_cases h : op.isShortBranch
  · exact (forms_of_isShortBranch h).pushes
  · rw [longForm_of_not_isShortBranch h]

/-- A code that is not a short branch is only its own long form. -/
theorem eq_of_longForm_eq {op op' : Opcode} (h : op.longForm = op') (hb : ¬op'.isBranch) :
    op = op' := by
  have hs : ¬op.isShortBranch := by
    intro hs
    rw [← h, isBranch_longForm, isBranch_of_isShortBranch hs] at hb
    exact hb rfl
  rwa [longForm_of_not_isShortBranch hs] at h

end Opcode

end CilProbe
