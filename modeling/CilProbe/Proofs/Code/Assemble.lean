/-
CilProbe/Proofs/Code/Assemble.lean

What the bytes of a listing say.  `written` is the instruction that a layout makes
of a node: at the node's position, in the form chosen for it, with every label
turned into the position that the label stands for.  The bytes of a listing are
those of its written instructions, which can be encoded and stand one behind the
other (`assembled`), so decoding gives them back (`decode_assemble`).
-/
import CilProbe.Code.Assemble
import CilProbe.Proofs.Cil.Positions
import CilProbe.Proofs.Code.Layout
import CilProbe.Proofs.Code.Listing

namespace CilProbe

namespace Layout

variable {l : Listing} {layout : Layout}

/-! ### Positions of labels -/

/-- The position of what a label can stand for. -/
def positionOf? (layout : Layout) : Binding → Option Nat
  | .node id => layout.offsetOf? id
  | .atEnd => some layout.codeSize
  | .unbound => none

/-- The same as a position in code. -/
def target (layout : Layout) (b : Binding) : Offset := .ofNat ((layout.positionOf? b).getD 0)

theorem resolve_eq_ok {label : Label} {position : Nat} :
    layout.resolve l label = .ok position ↔
      layout.positionOf? (l.binding label) = some position := by
  unfold resolve positionOf?
  rcases l.binding label with - | id | -
  · simp
  · rcases e : layout.offsetOf? id with - | p
    · simp [e]
    · simp [e]
  · simp

theorem toNat_target (hb : Bounded layout) {b : Binding} {position : Nat}
    (h : layout.positionOf? b = some position) : (layout.target b).toNat = position := by
  have hle : position ≤ Offset.last := by
    rcases b with - | id | -
    · cases h
    · exact hb.2 id position h
    · cases h
      exact hb.1
  rw [target, h]
  exact UInt32.toNat_ofNat_of_lt' (Nat.lt_of_le_of_lt hle (by decide))

/-! ### Instructions as written -/

/-- The form in which an operation code is written. -/
def form (op : Opcode) (long : Bool) : Opcode :=
  if op.isBranch then if long then op.longForm else op.shortForm else op

/-- The instruction of a node; a node that does not exist counts as one that does
nothing. -/
def instructionOf (l : Listing) (id : NodeId) : Instruction Label :=
  (l.nodes[id]?.map Node.instruction).getD (.new ⟨0⟩ .none)

/-- The instruction that a layout makes of a node. -/
def written (l : Listing) (layout : Layout) (id : NodeId) : Instruction Offset :=
  let i := instructionOf l id
  ⟨.ofNat ((layout.offsetOf? id).getD 0), form i.opcode (layout.isLong id),
    i.operand.map fun label => layout.target (l.binding label)⟩

theorem instructionOf_eq {id : NodeId} {n : Node} (h : l.nodes[id]? = some n) :
    instructionOf l id = n.instruction := by
  rw [instructionOf, h]
  rfl

theorem form_of_not_isBranch {op : Opcode} (h : ¬op.isBranch) (long : Bool) :
    form op long = op := if_neg h

/-- Both forms of a code have the same long form. -/
theorem longForm_form (op : Opcode) (long : Bool) : (form op long).longForm = op.longForm := by
  unfold form
  split
  · next hb =>
    have hf := Opcode.forms_of_isBranch hb
    split
    · exact hf.longForm_long
    · exact hf.longForm_short
  · rfl

/-- An instruction as written takes the bytes that the layout keeps for it. -/
theorem size_form {i : Instruction Label} (h : i.Known) (offset : Offset) (long : Bool)
    (f : Label → Offset) :
    (⟨offset, form i.opcode long, i.operand.map f⟩ : Instruction Offset).size =
      nodeSize i long := by
  by_cases hb : i.opcode.isBranch
  · have hkind := (Opcode.isBranch_iff h.1).mp hb
    obtain ⟨label, hlabel⟩ := Operand.exists_target_of_hasKind h.2 hkind
    have hf := Opcode.forms_of_isBranch hb
    have hsize : ∀ op : Opcode, op.bytes.length = 1 → op.size = 1 := fun op hop => by
      rw [← Opcode.length_bytes, hop]
    rw [Instruction.size_eq_width, hlabel, nodeSize, if_pos hb]
    simp only [form, if_pos hb]
    rcases long with - | -
    · rw [if_neg (by decide), if_neg (by decide), hsize _ hf.length_short, hf.operand_short]
      rfl
    · rw [if_pos rfl, if_pos rfl, hsize _ hf.length_long, hf.operand_long]
      rfl
  · rw [Instruction.size_eq_width, form_of_not_isBranch hb, Operand.width_map, nodeSize, if_neg hb,
      Instruction.size_eq_width]

section Written

variable {id : NodeId} {n : Node} {position : Nat} (hn : l.nodes[id]? = some n)
include hn

theorem opcode_written :
    (written l layout id).opcode = form n.instruction.opcode (layout.isLong id) := by
  show form (instructionOf l id).opcode _ = _
  rw [instructionOf_eq hn]

theorem operand_written :
    (written l layout id).operand =
      n.instruction.operand.map fun label => layout.target (l.binding label) := by
  show (instructionOf l id).operand.map _ = _
  rw [instructionOf_eq hn]

theorem size_written (hknown : n.instruction.Known) :
    (written l layout id).size = nodeSize n.instruction (layout.isLong id) := by
  unfold written
  rw [instructionOf_eq hn]
  exact size_form hknown _ _ _

omit hn in
theorem toNat_offset_written (hb : Bounded layout) (hposition : layout.offsetOf? id = some position) :
    (written l layout id).offset.toNat = position := by
  show (UInt32.ofNat ((layout.offsetOf? id).getD 0)).toNat = position
  rw [hposition]
  exact UInt32.toNat_ofNat_of_lt' (Nat.lt_of_le_of_lt (hb.2 id position hposition) (by decide))

theorem stop_written (hb : Bounded layout) (hknown : n.instruction.Known)
    (hposition : layout.offsetOf? id = some position) :
    (written l layout id).stop = position + nodeSize n.instruction (layout.isLong id) := by
  rw [Instruction.stop, toNat_offset_written hb hposition, size_written hn hknown]

end Written

theorem fits_32_iff {d : Int} : fits 32 d = true ↔ LongReach d := by
  simp only [fits, LongReach, Nat.reduceSub, Nat.pow_eq, Nat.reducePow, Bool.and_eq_true,
    decide_eq_true_eq]
  omega

theorem fits_8_iff {d : Int} : fits 8 d = true ↔ ShortReach d := by
  simp only [fits, ShortReach, Nat.reduceSub, Nat.pow_eq, Nat.reducePow, Bool.and_eq_true,
    decide_eq_true_eq]
  omega

end Layout

namespace Assemble

open Layout

variable {l : Listing} {layout : Layout}

/-! ### Displacements -/

/-- The distance computed for a label is the displacement of its position. -/
theorem distance_eq_ok (hb : Bounded layout) {stop : Nat} {label : Label} {d : Int}
    (h : distance l layout stop label = .ok d) :
    Operand.displacement stop (layout.target (l.binding label)) = d := by
  obtain ⟨position, hposition, h⟩ := bind_eq_ok.mp h
  obtain rfl := pure_eq_ok.mp h
  rw [Operand.displacement, toNat_target hb (resolve_eq_ok.mp hposition)]

theorem displacement_eq_ok {tooFar : Int → Error} {d : Int} {bytes : List UInt8}
    (h : displacement tooFar d = .ok bytes) :
    LongReach d ∧ bytes = LittleEndian.ofInt32 (Int32.ofInt d) := by
  unfold displacement at h
  split at h
  · next hfits =>
    cases h
    exact ⟨fits_32_iff.mp hfits, rfl⟩
  · cases h

/-- The table written for some labels is that of their positions. -/
theorem table_eq_ok (hb : Bounded layout) {stop : Nat} {labels : List Label}
    {table : List (List UInt8)} {tooFar : Int → Error}
    (h : (labels.mapM fun label => do
      displacement tooFar (← distance l layout stop label)) = .ok table) :
    (∀ label ∈ labels,
      LongReach (Operand.displacement stop (layout.target (l.binding label)))) ∧
      table = labels.map fun label =>
        LittleEndian.ofInt32 (Int32.ofInt
          (Operand.displacement stop (layout.target (l.binding label)))) := by
  rw [mapM_eq_ok] at h
  induction h with
  | nil => exact ⟨by simp, rfl⟩
  | @cons label bytes labels table hlabel _ ih =>
    obtain ⟨d, hd, hbytes⟩ := bind_eq_ok.mp hlabel
    obtain rfl := distance_eq_ok hb hd
    obtain ⟨hreach, rfl⟩ := displacement_eq_ok hbytes
    obtain ⟨hall, rfl⟩ := ih
    exact ⟨List.forall_mem_cons.mpr ⟨hreach, hall⟩, rfl⟩

/-! ### Instructions -/

/-- The bytes written for an operand outside of a branch are those of the operand
with its labels turned into positions. -/
theorem operand_eq_ok (hb : Bounded layout) {stop : Nat} {kind : OperandKind}
    {o : Operand Label} {bytes : List UInt8} (hkind : o.HasKind kind)
    (hbranch : ¬(kind = .shortBranch ∨ kind = .branch)) (hwidth : o.width kind ≤ Offset.last)
    (h : operand l layout stop o = .ok bytes) :
    let o' := o.map fun label => layout.target (l.binding label)
    o'.Encodable stop kind ∧ bytes = o'.bytes stop kind := by
  cases kind <;> cases o <;> try exact hkind.elim
  case switch.switch labels =>
    obtain ⟨table, htable, h⟩ := bind_eq_ok.mp h
    obtain rfl := pure_eq_ok.mp h
    obtain ⟨hreach, rfl⟩ := table_eq_ok hb htable
    have hlen : labels.length < 0x100000000 := by
      have hle : 4 + 4 * labels.length ≤ Offset.last := hwidth
      unfold Offset.last at hle
      omega
    refine ⟨⟨by simpa using hlen, by simpa using hreach⟩, ?_⟩
    simp [Operand.map, Operand.bytes_switch, List.flatMap_def, Function.comp_def]
  case shortBranch.target => exact (hbranch (.inl rfl)).elim
  case branch.target => exact (hbranch (.inr rfl)).elim
  all_goals
    cases h
    exact ⟨trivial, rfl⟩

/-- The bytes written for a branch are those of the form chosen for it, whose displacement
then fits. -/
theorem branch_eq_ok (hb : Bounded layout) {stop : Nat} {long : Bool} {i : Instruction Label}
    {label : Label} {bytes : List UInt8} (hbranch : i.opcode.isBranch)
    (hoperand : i.operand = .target label) (h : branch l layout stop long i = .ok bytes) :
    let op := form i.opcode long
    let o : Operand Offset := .target (layout.target (l.binding label))
    op.info? = some op.info ∧ o.Encodable stop op.info.operand ∧
      bytes = op.bytes ++ o.bytes stop op.info.operand := by
  obtain ⟨label', hlabel, h⟩ := bind_eq_ok.mp h
  obtain ⟨d, hd, h⟩ := bind_eq_ok.mp h
  rw [branchLabel, hoperand] at hlabel
  obtain rfl := Except.ok.inj hlabel
  obtain rfl := distance_eq_ok hb hd
  have hf := Opcode.forms_of_isBranch hbranch
  intro op o
  unfold op form
  rcases long with - | -
  · -- the short form is written only where it reaches
    rw [if_pos hbranch, if_neg (by decide), hf.operand_short]
    rw [if_neg (by decide)] at h
    split at h
    · next hreach =>
      obtain rfl := pure_eq_ok.mp h
      exact ⟨hf.info?_short, fits_8_iff.mp hreach, rfl⟩
    · cases h
  · rw [if_pos hbranch, if_pos rfl, hf.operand_long]
    rw [if_pos rfl] at h
    obtain ⟨displaced, hdisplaced, h⟩ := bind_eq_ok.mp h
    obtain rfl := pure_eq_ok.mp h
    obtain ⟨hreach, rfl⟩ := displacement_eq_ok hdisplaced
    exact ⟨hf.info?_long, hreach, rfl⟩

/-- The bytes written for a node are those of its instruction as written. -/
theorem node_eq_ok (hb : Bounded layout) {id : NodeId} {n : Node} {position : Nat}
    {bytes : List UInt8} (hn : l.nodes[id]? = some n) (hknown : n.instruction.Known)
    (hposition : layout.offsetOf? id = some position)
    (hfits : position + nodeSize n.instruction (layout.isLong id) ≤ Offset.last)
    (h : node l layout id = .ok bytes) :
    (written l layout id).offset.toNat = position ∧
      (written l layout id).size = nodeSize n.instruction (layout.isLong id) ∧
      (written l layout id).Encodable ∧ bytes = (written l layout id).bytes := by
  refine ⟨toNat_offset_written hb hposition, size_written hn hknown, ?_⟩
  obtain ⟨n', hn', h⟩ := bind_eq_ok.mp h
  obtain rfl : n = n' := Option.some.inj (hn.symm.trans (Layout.node_eq_ok.mp hn'))
  simp only [hposition, Option.getD_some, ← stop_written hn hb hknown hposition] at h
  unfold Instruction.Encodable Instruction.bytes
  rw [opcode_written hn, operand_written hn]
  -- branches are written in the form the layout says, all else as it is
  by_cases hbranch : n.instruction.opcode.isBranch = true
  · rw [if_pos hbranch] at h
    obtain ⟨label, hlabel⟩ :=
      Operand.exists_target_of_hasKind hknown.2 ((Opcode.isBranch_iff hknown.1).mp hbranch)
    obtain ⟨hinfo, henc, hbytes⟩ := branch_eq_ok hb hbranch hlabel h
    rw [hlabel]
    exact ⟨⟨hinfo, henc⟩, hbytes⟩
  · rw [if_neg hbranch] at h
    obtain ⟨operandBytes, hbytes, h⟩ := bind_eq_ok.mp h
    obtain rfl := pure_eq_ok.mp h
    have hwidth : n.instruction.operand.width n.instruction.opcode.info.operand ≤
        Offset.last := by
      rw [nodeSize, if_neg hbranch, Instruction.size_eq_width] at hfits
      omega
    obtain ⟨henc, rfl⟩ := operand_eq_ok hb hknown.2
      (fun hkind => hbranch ((Opcode.isBranch_iff hknown.1).mpr hkind)) hwidth hbytes
    rw [form_of_not_isBranch hbranch]
    exact ⟨⟨hknown.1, henc⟩, rfl⟩

end Assemble

/-! ### Code -/

section Code

open Layout

variable {l : Listing} {layout : Layout}

/-- Nodes that stand one behind the other are written as instructions that do. -/
theorem assembled_from (hb : Bounded layout) {position : Nat} {ids : List NodeId}
    (hknown : l.KnownIn ids) {blocks : List (List UInt8)} (hstands : Stands l layout position ids)
    (h : List.Forall₂ (fun id bytes => Assemble.node l layout id = .ok bytes) ids blocks) :
    blocks.flatten = codeBytes (ids.map (written l layout)) ∧
      (∀ id ∈ ids, (written l layout id).Encodable) ∧
      Contiguous position (ids.map (written l layout)) := by
  induction h generalizing position with
  | nil => exact ⟨rfl, by simp, trivial⟩
  | @cons id bytes ids blocks hid _ ih =>
    obtain ⟨hposition, n, hn, hrest⟩ := hstands
    have hend := position_le_codeSize hrest
    obtain ⟨hn', hknown⟩ := List.forall_mem_cons.mp hknown
    obtain ⟨hoffset, hsize, henc, rfl⟩ :=
      Assemble.node_eq_ok hb hn (hn' n hn) hposition (Nat.le_trans hend hb.1) hid
    obtain ⟨hbytes, hall, hcont⟩ := ih hknown hrest
    refine ⟨?_, List.forall_mem_cons.mpr ⟨henc, hall⟩, hoffset, ?_⟩
    · rw [List.flatten_cons, hbytes]
      rfl
    · rw [hsize]
      exact hcont

/-- The code of a layout ends with its last instruction. -/
theorem Layout.codeSize_eq {position : Nat} {ids : List NodeId} (hknown : l.KnownIn ids)
    (h : Stands l layout position ids) :
    layout.codeSize = codeEnd position (ids.map (written l layout)) := by
  induction ids generalizing position with
  | nil => exact h
  | cons id ids ih =>
    obtain ⟨-, n, hn, hrest⟩ := h
    obtain ⟨hid, hknown⟩ := List.forall_mem_cons.mp hknown
    rw [ih hknown hrest, List.map_cons, codeEnd]
    rw [size_written hn (hid n hn)]

/-- The bytes of a listing are those of its instructions as written, which can be
encoded and stand one behind the other. -/
theorem assembled {limit : Nat} {bytes : List UInt8} (hids : l.order.Nodup)
    (hknown : l.KnownIn l.order) (hlayout : Layout.of l limit = .ok layout)
    (h : assemble l layout = .ok bytes) :
    bytes = codeBytes (l.order.map (written l layout)) ∧
      (∀ id ∈ l.order, (written l layout id).Encodable) ∧
      Contiguous 0 (l.order.map (written l layout)) := by
  obtain ⟨hstands, hb⟩ := stands_of hids hlayout
  obtain ⟨blocks, hblocks, h⟩ := bind_eq_ok.mp h
  obtain rfl := pure_eq_ok.mp h
  exact assembled_from hb hknown hstands (mapM_eq_ok.mp hblocks)

/-- Decoding the bytes of a listing gives its instructions as written. -/
theorem decode_assemble {limit : Nat} {bytes : List UInt8} (hids : l.order.Nodup)
    (hknown : l.KnownIn l.order) (hlayout : Layout.of l limit = .ok layout)
    (h : assemble l layout = .ok bytes) :
    decode bytes = .ok (l.order.map (written l layout)) := by
  obtain ⟨hbytes, henc, hcont⟩ := assembled hids hknown hlayout h
  exact decode_eq_ok_iff.mpr ⟨hbytes, by simpa using henc, hcont⟩

end Code

end CilProbe
