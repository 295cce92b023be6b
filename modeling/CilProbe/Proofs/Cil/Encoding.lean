/-
CilProbe/Proofs/Cil/Encoding.lean

Instructions as bytes, beside the reader.  `Instruction.bytes` writes a decoded
instruction in the form its own code has, with every target turned back into a
displacement.  Reading and writing are inverse: an instruction that can be
encoded is read from its bytes (`readsAt_instruction`), and whatever is read can
be encoded and stood there as exactly its bytes (`instruction_found`).

For whole code this gives `decode_eq_ok_iff`: code decodes to some instructions
exactly if it is made of their bytes and they stand one behind the other.
-/
import CilProbe.Cil.Decode
import CilProbe.Proofs.Bytes.Reading
import CilProbe.Proofs.Cil.Opcodes

namespace CilProbe

/-! ### Operands as bytes -/

/-- Displacements that 8 bits have room for. -/
def ShortReach (d : Int) : Prop := -0x80 ≤ d ∧ d < 0x80

/-- Displacements that 32 bits have room for. -/
def LongReach (d : Int) : Prop := -0x80000000 ≤ d ∧ d < 0x80000000

theorem ShortReach.long {d : Int} (h : ShortReach d) : LongReach d := by
  unfold ShortReach at h
  unfold LongReach
  omega

namespace Operand

/-- How far a target is from the position `next`. -/
def displacement (next : Nat) (target : Offset) : Int := (target.toNat : Int) - next

/-- The operand as bytes of the given kind, in an instruction that ends at
`next`; an operand of another kind has none. -/
def bytes (next : Nat) : OperandKind → Operand Offset → List UInt8
  | .shortInt, .int8 v => [v.toUInt8]
  | .shortVar, .uint8 v => [v]
  | .var, .uint16 v => LittleEndian.ofUInt16 v
  | .int32, .int32 v => LittleEndian.ofInt32 v
  | .int64, .int64 v => LittleEndian.ofInt64 v
  | .float32, .float32 bits => LittleEndian.ofUInt32 bits
  | .float64, .float64 bits => LittleEndian.ofUInt64 bits
  | .token, .token t => LittleEndian.ofUInt32 t.value
  | .shortBranch, .target t => [(Int8.ofInt (displacement next t)).toUInt8]
  | .branch, .target t => LittleEndian.ofInt32 (Int32.ofInt (displacement next t))
  | .switch, .switch ts =>
    LittleEndian.encode 4 ts.length ++
      ts.flatMap fun t => LittleEndian.ofInt32 (Int32.ofInt (displacement next t))
  | _, _ => []

/-- The operand is of the given kind and its targets can be reached from
`next`. -/
def Encodable (next : Nat) : OperandKind → Operand Offset → Prop
  | .none, .none | .shortInt, .int8 _ | .shortVar, .uint8 _ | .var, .uint16 _
  | .int32, .int32 _ | .int64, .int64 _ | .float32, .float32 _ | .float64, .float64 _
  | .token, .token _ => True
  | .shortBranch, .target t => ShortReach (displacement next t)
  | .branch, .target t => LongReach (displacement next t)
  | .switch, .switch ts => ts.length < 0x100000000 ∧ ∀ t ∈ ts, LongReach (displacement next t)
  | _, _ => False

theorem bytes_shortBranch (next : Nat) (t : Offset) :
    bytes next .shortBranch (.target t) = [(Int8.ofInt (displacement next t)).toUInt8] := rfl

theorem bytes_branch (next : Nat) (t : Offset) :
    bytes next .branch (.target t) = LittleEndian.ofInt32 (Int32.ofInt (displacement next t)) := rfl

theorem bytes_switch (next : Nat) (ts : List Offset) :
    bytes next .switch (.switch ts) = LittleEndian.encode 4 ts.length ++
      ts.flatMap fun t => LittleEndian.ofInt32 (Int32.ofInt (displacement next t)) := rfl

end Operand

namespace Instruction

/-- The position behind the instruction, as a number. -/
def stop (i : Instruction Offset) : Nat := i.offset.toNat + i.size

/-- The instruction as bytes, in the form that its code has. -/
def bytes (i : Instruction Offset) : List UInt8 :=
  i.opcode.bytes ++ i.operand.bytes i.stop i.opcode.info.operand

/-- The code is known, and the operand is the one that it announces. -/
def Encodable (i : Instruction Offset) : Prop :=
  i.opcode.info? = some i.opcode.info ∧ i.operand.Encodable i.stop i.opcode.info.operand

end Instruction

/-! ### Lengths -/

theorem LittleEndian.length_ofUInt16 (w : UInt16) : (ofUInt16 w).length = 2 := length_encode _ _

theorem LittleEndian.length_ofUInt32 (w : UInt32) : (ofUInt32 w).length = 4 := length_encode _ _

theorem LittleEndian.length_ofUInt64 (w : UInt64) : (ofUInt64 w).length = 8 := length_encode _ _

theorem LittleEndian.length_ofInt32 (i : Int32) : (ofInt32 i).length = 4 := length_encode _ _

theorem LittleEndian.length_ofInt64 (i : Int64) : (ofInt64 i).length = 8 := length_encode _ _

theorem LittleEndian.length_flatMap_ofInt32 {α : Type} (f : α → Int32) (items : List α) :
    (items.flatMap fun a => ofInt32 (f a)).length = 4 * items.length := by
  simp only [List.length_flatMap, length_ofInt32, List.map_const', List.sum_replicate_nat]
  exact Nat.mul_comm _ _

theorem Opcode.length_bytes (op : Opcode) : op.bytes.length = op.size := by
  unfold bytes size
  split <;> rfl

/-- Bytes of an operand of the given kind: those that the kind says, or the jump
table. -/
def Operand.width {τ : Type} (kind : OperandKind) : Operand τ → Nat
  | .switch targets => 4 + 4 * targets.length
  | _ => kind.size

theorem Operand.length_bytes {next : Nat} {kind : OperandKind} {operand : Operand Offset}
    (h : operand.Encodable next kind) :
    (operand.bytes next kind).length = operand.width kind := by
  cases kind <;> cases operand <;> try exact h.elim
  case switch.switch ts =>
    rw [bytes_switch, List.length_append, LittleEndian.length_encode,
      LittleEndian.length_flatMap_ofInt32, width]
  case var.uint16 v => exact LittleEndian.length_ofUInt16 v
  case int32.int32 v => exact LittleEndian.length_ofInt32 v
  case int64.int64 v => exact LittleEndian.length_ofInt64 v
  case float32.float32 v => exact LittleEndian.length_ofUInt32 v
  case float64.float64 v => exact LittleEndian.length_ofUInt64 v
  case token.token v => exact LittleEndian.length_ofUInt32 v.value
  case branch.target t => exact LittleEndian.length_ofInt32 _
  all_goals rfl

/-- An instruction takes as many bytes as its code and its operand. -/
theorem Instruction.size_eq {i : Instruction Offset} {next : Nat}
    (h : i.operand.Encodable next i.opcode.info.operand) :
    i.size = i.opcode.bytes.length + (i.operand.bytes next i.opcode.info.operand).length := by
  rw [Operand.length_bytes h, Opcode.length_bytes]
  rfl

theorem Instruction.length_bytes {i : Instruction Offset} (h : i.Encodable) :
    i.bytes.length = i.size := by
  rw [bytes, List.length_append, ← size_eq h.2]

theorem Instruction.size_pos {τ : Type} (i : Instruction τ) : 0 < i.size := by
  unfold size Opcode.size
  split <;> omega

/-! ### Reading what was written -/

section Reads

open Reader

theorem toInt_ofInt8 {d : Int} (h : ShortReach d) : (Int8.ofInt d).toInt = d :=
  Int8.toInt_ofInt_of_le (by have := h.1; omega) (by have := h.2; omega)

theorem toInt_ofInt32 {d : Int} (h : LongReach d) : (Int32.ofInt d).toInt = d :=
  Int32.toInt_ofInt_of_le (by have := h.1; omega) (by have := h.2; omega)

/-- A position is one, as a number. -/
theorem Offset.ofInt?_toNat (o : Offset) : Offset.ofInt? (o.toNat : Int) = some o := by
  have hle : o.toNat ≤ Offset.last := by
    have := o.toNat_lt
    unfold Offset.last
    omega
  show Offset.ofNat? o.toNat = some o
  unfold Offset.ofNat?
  rw [if_pos hle, UInt32.ofNat_toNat]

theorem readsAt_branchTarget (pos next : Nat) (t : Offset) :
    ReadsAt (Decode.branchTarget next (Operand.displacement next t)) pos [] t := by
  have hsum : (next : Int) + Operand.displacement next t = t.toNat := by
    unfold Operand.displacement
    omega
  unfold Decode.branchTarget
  rw [hsum, Offset.ofInt?_toNat]
  exact .pure pos t

theorem readsAt_opcode {op : Opcode} {info : OpcodeInfo} (h : op.info? = some info) (pos : Nat) :
    ReadsAt Decode.opcode pos op.bytes op := by
  unfold Decode.opcode Opcode.bytes
  split
  · next htwo =>
    have hsecond := (ReadsAt.byte (pos + 1) op.code.toUInt8).bind_pure (Opcode.ofBytes 0xFE)
    rw [show Opcode.ofBytes 0xFE op.code.toUInt8 = op from Opcode.ofBytes_of_isTwoByte htwo]
      at hsecond
    exact (ReadsAt.byte pos Opcode.escape).bind hsecond
  · next hone =>
    obtain ⟨hlt, hne⟩ := Opcode.code_of_not_isTwoByte h hone
    have hlead : ¬(op.code.toUInt8 == Opcode.escape) := by
      rw [beq_iff_eq, ← UInt8.toNat_inj, UInt16.toNat_toUInt8,
        show Opcode.escape.toNat = 0xFE from rfl]
      omega
    have hfirst := ReadsAt.pure (pos + 1) (Opcode.ofBytes 0 op.code.toUInt8)
    rw [Opcode.ofBytes_zero hlt] at hfirst
    refine (ReadsAt.byte pos op.code.toUInt8).bind_end ?_
    rw [if_neg hlead]
    rwa [Opcode.ofBytes_zero hlt]

/-- A jump table is read from its count and its displacements. -/
theorem readsAt_jumpTable {ts : List Offset} {pos next : Nat} (offset : Offset)
    (h : Operand.Encodable next .switch (.switch ts)) (hnext : next = pos + (4 + 4 * ts.length)) :
    ReadsAt (Decode.jumpTable offset) pos (Operand.bytes next .switch (.switch ts)) ts := by
  obtain ⟨hlen, hreach⟩ := h
  have hcount : (UInt32.ofNat ts.length).toNat = ts.length := UInt32.toNat_ofNat_of_lt' hlen
  have hfirst := ReadsAt.word32 pos (UInt32.ofNat ts.length)
  simp only [LittleEndian.ofUInt32, hcount] at hfirst
  let ds := ts.map fun t => Int32.ofInt (Operand.displacement next t)
  have hbytes : Operand.bytes next .switch (.switch ts) =
      LittleEndian.encode 4 ts.length ++ ds.flatMap LittleEndian.ofInt32 := by
    simp [ds, Operand.bytes_switch, List.flatMap_map]
  have hds : ds.length = ts.length := List.length_map _
  have htable : (ds.flatMap LittleEndian.ofInt32).length = 4 * ts.length := by
    rw [← hds]
    exact LittleEndian.length_flatMap_ofInt32 id ds
  have htimes := ReadsAt.times ds (pos + 4) fun d _ pos => ReadsAt.int32 pos d
  -- the displacements are all counted from behind the table
  have htargets : ReadsAt (ds.mapM fun d => Decode.branchTarget next d.toInt) next [] ts := by
    have hmap := ReadsAt.mapM_map (fun d => Decode.branchTarget next d.toInt)
      (fun t => Int32.ofInt (Operand.displacement next t)) id fun t (ht : t ∈ ts) => by
        rw [toInt_ofInt32 (hreach t ht)]
        exact readsAt_branchTarget next next t
    rwa [List.map_id] at hmap
  rw [hbytes]
  refine hfirst.bind (.hasAtLeast_bind ?_ ?_)
  · refine Nat.le_of_eq ?_
    rw [hcount, htable]
  · show ReadsAt (times _ _ >>= _) _ _ _
    rw [LittleEndian.length_encode, hcount, ← hds]
    refine htimes.bind_end ((ReadsAt.position _).bind_nil ?_)
    rw [htable, Nat.add_assoc, ← hnext]
    exact htargets

/-- An operand that can be encoded is read from its bytes. -/
theorem readsAt_operand {kind : OperandKind} {operand : Operand Offset} {pos next : Nat}
    (offset : Offset) (h : operand.Encodable next kind)
    (hnext : next = pos + (operand.bytes next kind).length) :
    ReadsAt (Decode.operand offset kind) pos (operand.bytes next kind) operand := by
  cases kind <;> cases operand <;> try exact h.elim
  case none.none => exact .pure pos _
  case shortVar.uint8 v => exact (ReadsAt.byte pos v).bind_pure Operand.uint8
  case var.uint16 v => exact (ReadsAt.word16 pos v).bind_pure Operand.uint16
  case shortInt.int8 v => exact (ReadsAt.int8 pos v).bind_pure Operand.int8
  case int32.int32 v => exact (ReadsAt.int32 pos v).bind_pure Operand.int32
  case int64.int64 v => exact (ReadsAt.int64 pos v).bind_pure Operand.int64
  case float32.float32 v => exact (ReadsAt.word32 pos v).bind_pure Operand.float32
  case float64.float64 v => exact (ReadsAt.word64 pos v).bind_pure Operand.float64
  case token.token v => exact (ReadsAt.word32 pos v.value).bind_pure fun w => Operand.token ⟨w⟩
  -- branches are written as displacements from behind themselves
  case shortBranch.target t =>
    refine (ReadsAt.int8 pos _).bind_end ((ReadsAt.position _).bind_nil ?_)
    rw [toInt_ofInt8 h]
    have htarget := readsAt_branchTarget next next t
    rw [hnext] at htarget ⊢
    exact htarget.bind_pure Operand.target
  case branch.target t =>
    refine (ReadsAt.int32 pos _).bind_end ((ReadsAt.position _).bind_nil ?_)
    rw [toInt_ofInt32 h]
    have htarget := readsAt_branchTarget next next t
    rw [hnext] at htarget ⊢
    exact htarget.bind_pure Operand.target
  case switch.switch ts =>
    rw [Operand.length_bytes h, Operand.width] at hnext
    exact (readsAt_jumpTable offset h hnext).bind_pure Operand.switch

/-- An instruction that can be encoded is read from its bytes at its own
position. -/
theorem readsAt_instruction {i : Instruction Offset} (h : i.Encodable) :
    ReadsAt Decode.instruction i.offset.toNat i.bytes i := by
  have hhere : ReadsAt Decode.here i.offset.toNat [] i.offset := by
    refine (ReadsAt.position _).bind_nil ?_
    rw [show Offset.ofNat? i.offset.toNat = some i.offset from Offset.ofInt?_toNat i.offset]
    exact .pure _ _
  have hlen := Instruction.length_bytes h
  have hnext : i.stop = i.offset.toNat + i.opcode.bytes.length +
      (i.operand.bytes i.stop i.opcode.info.operand).length := by
    rw [Instruction.bytes, List.length_append] at hlen
    have hstop : i.stop = i.offset.toNat + i.size := rfl
    omega
  refine hhere.bind_nil ((readsAt_opcode h.1 _).bind ?_)
  rw [h.1]
  exact (readsAt_operand i.offset h.2 hnext).bind_pure (Instruction.mk i.offset i.opcode)

end Reads

/-! ### Writing what was read -/

section Finds

open Reader

variable {c c' : Cursor}

theorem start_branchTarget_eq_ok {next : Nat} {d : Int} {t : Offset}
    (h : (Decode.branchTarget next d).start c = (.ok t, c')) :
    Operand.displacement next t = d ∧ c = c' := by
  unfold Decode.branchTarget at h
  split at h
  · next target htarget =>
    obtain ⟨rfl, rfl⟩ := start_pure_eq_ok.mp h
    refine ⟨?_, rfl⟩
    rcases hsum : (next : Int) + d with n | n
    · rw [hsum] at htarget
      have hto := Offset.toNat_of_ofNat? (show Offset.ofNat? n = some target from htarget)
      have hn : (next : Int) + d = n := hsum
      unfold Operand.displacement
      omega
    · rw [hsum] at htarget
      cases htarget
  · cases h

theorem shortReach_toInt (i : Int8) : ShortReach i.toInt := by
  have hlt := i.toInt_lt
  have hle := i.le_toInt
  constructor <;> omega

theorem longReach_toInt (i : Int32) : LongReach i.toInt := by
  have hlt := i.toInt_lt
  have hle := i.le_toInt
  constructor <;> omega

/-- The targets found are as far away as the displacements say. -/
theorem start_mapM_branchTarget_eq_ok {next : Nat} {ds : List Int32} {ts : List Offset}
    (h : (ds.mapM fun d => Decode.branchTarget next d.toInt).start c = (.ok ts, c')) :
    ds = ts.map (fun t => Int32.ofInt (Operand.displacement next t)) ∧
      (∀ t ∈ ts, LongReach (Operand.displacement next t)) ∧ c = c' := by
  induction ds generalizing c ts with
  | nil =>
    obtain ⟨rfl, rfl⟩ := start_pure_eq_ok.mp h
    exact ⟨rfl, by simp, rfl⟩
  | cons d ds ih =>
    rw [List.mapM_cons] at h
    obtain ⟨t, c₁, ht, h⟩ := start_bind_eq_ok.mp h
    obtain ⟨ts', c₂, hts, h⟩ := start_bind_eq_ok.mp h
    obtain ⟨rfl, rfl⟩ := start_pure_eq_ok.mp h
    obtain ⟨hd, rfl⟩ := start_branchTarget_eq_ok ht
    obtain ⟨hds, hreach, rfl⟩ := ih hts
    refine ⟨?_, ?_, rfl⟩
    · rw [List.map_cons, hd, Int32.ofInt_toInt, ← hds]
    · intro t' ht'
      rcases List.mem_cons.mp ht' with rfl | ht'
      · rw [hd]
        exact longReach_toInt d
      · exact hreach t' ht'

theorem jumpTable_found {offset : Offset} {ts : List Offset}
    (h : (Decode.jumpTable offset).start c = (.ok ts, c')) :
    ∃ next, Operand.Encodable next .switch (.switch ts) ∧
      c.rest = Operand.bytes next .switch (.switch ts) ++ c'.rest ∧ c'.pos = next ∧
      c'.pos = c.pos + (Operand.bytes next .switch (.switch ts)).length := by
  obtain ⟨cases, c₁, hcases, h⟩ := start_bind_eq_ok.mp h
  obtain ⟨enough, c₂, henough, h⟩ := start_bind_eq_ok.mp h
  rw [start_hasAtLeast] at henough
  obtain rfl : c₁ = c₂ := congrArg Prod.snd henough
  by_cases hb : enough = true
  · rw [if_pos hb] at h
    obtain ⟨ds, c₃, hds, h⟩ := start_bind_eq_ok.mp h
    obtain ⟨next, c₄, hnext, h⟩ := start_bind_eq_ok.mp h
    obtain ⟨rfl, rfl⟩ : c₃.pos = next ∧ c₃ = c₄ := by simpa using hnext
    obtain ⟨hcrest, hcpos⟩ := finds_word32 hcases
    obtain ⟨hlen, hdrest, hdpos⟩ := finds_times finds_int32 hds
    obtain ⟨rfl, hreach, rfl⟩ := start_mapM_branchTarget_eq_ok h
    rw [List.length_map] at hlen
    -- the targets that were made out give the displacements back
    have hbytes : Operand.bytes c₃.pos .switch (.switch ts) =
        LittleEndian.ofUInt32 cases ++ (ts.map fun t =>
          Int32.ofInt (Operand.displacement c₃.pos t)).flatMap LittleEndian.ofInt32 := by
      rw [Operand.bytes_switch, List.flatMap_map, hlen]
      rfl
    have hlt : ts.length < 0x100000000 := by
      rw [hlen]
      exact cases.toNat_lt
    refine ⟨c₃.pos, ⟨hlt, hreach⟩, ?_, rfl, ?_⟩
    · rw [hbytes, hcrest, hdrest, List.append_assoc]
    · have hlength := congrArg List.length hbytes
      rw [List.length_append] at hlength
      omega
  · rw [if_neg hb] at h
    obtain ⟨_, _, hthrow, _⟩ := start_bind_eq_ok.mp h
    cases hthrow

/-- An operand that was read can be encoded, and stood there as its bytes. -/
theorem operand_found {offset : Offset} {kind : OperandKind} {operand : Operand Offset}
    (h : (Decode.operand offset kind).start c = (.ok operand, c')) :
    operand.Encodable c'.pos kind ∧ c.rest = operand.bytes c'.pos kind ++ c'.rest ∧
      c'.pos = c.pos + (operand.bytes c'.pos kind).length := by
  cases kind
  case none =>
    obtain ⟨rfl, rfl⟩ := start_pure_eq_ok.mp h
    exact ⟨trivial, rfl, rfl⟩
  case shortBranch =>
    obtain ⟨d, c₁, hd, h⟩ := start_bind_eq_ok.mp h
    obtain ⟨next, c₂, hnext, h⟩ := start_bind_eq_ok.mp h
    obtain ⟨rfl, rfl⟩ : c₁.pos = next ∧ c₁ = c₂ := by simpa using hnext
    obtain ⟨t, c₃, ht, h⟩ := start_bind_eq_ok.mp h
    obtain ⟨rfl, rfl⟩ := start_pure_eq_ok.mp h
    obtain ⟨hdisp, rfl⟩ := start_branchTarget_eq_ok ht
    have hreach : ShortReach (Operand.displacement c₁.pos t) := hdisp ▸ shortReach_toInt d
    have hbytes : Operand.bytes c₁.pos .shortBranch (.target t) = [d.toUInt8] := by
      rw [Operand.bytes_shortBranch, hdisp, Int8.ofInt_toInt]
    rw [hbytes]
    exact ⟨hreach, finds_int8 hd⟩
  case branch =>
    obtain ⟨d, c₁, hd, h⟩ := start_bind_eq_ok.mp h
    obtain ⟨next, c₂, hnext, h⟩ := start_bind_eq_ok.mp h
    obtain ⟨rfl, rfl⟩ : c₁.pos = next ∧ c₁ = c₂ := by simpa using hnext
    obtain ⟨t, c₃, ht, h⟩ := start_bind_eq_ok.mp h
    obtain ⟨rfl, rfl⟩ := start_pure_eq_ok.mp h
    obtain ⟨hdisp, rfl⟩ := start_branchTarget_eq_ok ht
    have hreach : LongReach (Operand.displacement c₁.pos t) := hdisp ▸ longReach_toInt d
    have hbytes : Operand.bytes c₁.pos .branch (.target t) = LittleEndian.ofInt32 d := by
      rw [Operand.bytes_branch, hdisp, Int32.ofInt_toInt]
    rw [hbytes]
    exact ⟨hreach, finds_int32 hd⟩
  case switch =>
    obtain ⟨ts, c₁, hts, h⟩ := start_bind_eq_ok.mp h
    obtain ⟨rfl, rfl⟩ := start_pure_eq_ok.mp h
    obtain ⟨next, henc, hrest, rfl, hpos⟩ := jumpTable_found hts
    exact ⟨henc, hrest, hpos⟩
  -- what is left is a number or a token as it stands
  all_goals
    obtain ⟨v, c₁, hv, h⟩ := start_bind_eq_ok.mp h
    obtain ⟨rfl, rfl⟩ := start_pure_eq_ok.mp h
    refine ⟨trivial, ?_⟩
    first
      | exact finds_byte hv
      | exact finds_int8 hv
      | exact finds_word16 hv
      | exact finds_word32 hv
      | exact finds_int32 hv
      | exact finds_word64 hv
      | exact finds_int64 hv

theorem here_found {offset : Offset} (h : Decode.here.start c = (.ok offset, c')) :
    offset.toNat = c.pos ∧ c = c' := by
  obtain ⟨pos, c₁, hpos, h⟩ := start_bind_eq_ok.mp h
  obtain ⟨rfl, rfl⟩ : c.pos = pos ∧ c = c₁ := by simpa using hpos
  split at h
  · next o ho =>
    obtain ⟨rfl, rfl⟩ := start_pure_eq_ok.mp h
    exact ⟨Offset.toNat_of_ofNat? ho, rfl⟩
  · cases h

theorem opcode_found {op : Opcode} (h : Decode.opcode.start c = (.ok op, c')) :
    c.rest = op.bytes ++ c'.rest ∧ c'.pos = c.pos + op.bytes.length := by
  obtain ⟨lead, c₁, hlead, h⟩ := start_bind_eq_ok.mp h
  obtain ⟨hrest, hpos⟩ := finds_byte hlead
  by_cases hb : (lead == Opcode.escape) = true
  · rw [if_pos hb] at h
    obtain ⟨second, c₂, hsecond, h⟩ := start_bind_eq_ok.mp h
    obtain ⟨rfl, rfl⟩ := start_pure_eq_ok.mp h
    obtain ⟨hrest', hpos'⟩ := finds_byte hsecond
    rw [eq_of_beq hb] at hrest ⊢
    rw [Opcode.bytes_ofBytes_escape]
    exact ⟨by rw [hrest, hrest']; rfl, by rw [hpos', hpos]; rfl⟩
  · rw [if_neg hb] at h
    obtain ⟨rfl, rfl⟩ := start_pure_eq_ok.mp h
    rw [Opcode.bytes_ofBytes_zero]
    exact ⟨hrest, hpos⟩

/-- An instruction that was read stands at the position it was read from, can be
encoded, and stood there as its bytes. -/
theorem instruction_found {i : Instruction Offset}
    (h : Decode.instruction.start c = (.ok i, c')) :
    i.Encodable ∧ i.offset.toNat = c.pos ∧ c.rest = i.bytes ++ c'.rest ∧
      c'.pos = c.pos + i.bytes.length := by
  obtain ⟨offset, c₁, hhere, htail⟩ := start_bind_eq_ok.mp h
  obtain ⟨op, c₂, hop, hlast⟩ := start_bind_eq_ok.mp htail
  obtain ⟨hoffset, rfl⟩ := here_found hhere
  obtain ⟨hoprest, hoppos⟩ := opcode_found hop
  rcases hinfo : op.info? with _ | info
  · rw [hinfo] at hlast
    cases hlast
  · rw [hinfo] at hlast
    obtain ⟨operand, c₃, hoperand, hi⟩ := start_bind_eq_ok.mp hlast
    obtain ⟨rfl, rfl⟩ := start_pure_eq_ok.mp hi
    obtain ⟨henc, hrest, hpos⟩ := operand_found hoperand
    obtain rfl := Opcode.info_of_info? hinfo
    have hsize : (⟨offset, op, operand⟩ : Instruction Offset).size =
        op.bytes.length + (operand.bytes c₃.pos op.info.operand).length :=
      Instruction.size_eq henc
    -- behind the operand is behind the instruction
    have hstop : (⟨offset, op, operand⟩ : Instruction Offset).stop = c₃.pos := by
      rw [Instruction.stop, hsize]
      show offset.toNat + _ = c₃.pos
      omega
    have hbytes : (⟨offset, op, operand⟩ : Instruction Offset).bytes =
        op.bytes ++ operand.bytes c₃.pos op.info.operand := by
      rw [Instruction.bytes, hstop]
    refine ⟨⟨hinfo, hstop ▸ henc⟩, hoffset, ?_, ?_⟩
    · rw [hbytes, hoprest, hrest, List.append_assoc]
    · rw [hbytes, List.length_append]
      omega

end Finds

/-! ### Code -/

/-- Instructions that stand one behind the other, the first one at `start`. -/
def Contiguous : Nat → List (Instruction Offset) → Prop
  | _, [] => True
  | start, i :: code => i.offset.toNat = start ∧ Contiguous (start + i.size) code

/-- The bytes of code. -/
def codeBytes (code : List (Instruction Offset)) : List UInt8 := code.flatMap Instruction.bytes

section Code

open Reader

theorem codeBytes_ne_nil {i : Instruction Offset} (h : i.Encodable)
    (code : List (Instruction Offset)) : codeBytes (i :: code) ≠ [] := by
  intro hnil
  have hlen := congrArg List.length hnil
  rw [codeBytes, List.flatMap_cons, List.length_append, Instruction.length_bytes h] at hlen
  have hpos := i.size_pos
  have hzero : ([] : List UInt8).length = 0 := rfl
  omega

theorem start_instructionsAfter_succ (count : Nat) (done : List (Instruction Offset))
    (c : Cursor) :
    (Decode.instructionsAfter (count + 1) done).start c =
      if c.rest.isEmpty then (.ok done.reverse, c)
      else
        match Decode.instruction.start c with
        | (.ok i, c') => (Decode.instructionsAfter count (i :: done)).start c'
        | (.error e, c') => (.error e, c') := by
  by_cases h : c.rest.isEmpty = true
  · rw [if_pos h]
    show ((if c.rest.isEmpty then _ else _ : Reader _).start c) = _
    rw [if_pos h]
    rfl
  · rw [if_neg h]
    show ((if c.rest.isEmpty then _ else _ : Reader _).start c) = _
    rw [if_neg h, start_bind]
    rcases Decode.instruction.start c with ⟨_ | _, _⟩ <;> rfl

/-- Code that can be encoded is read from its bytes, to the end. -/
theorem start_instructionsAfter {code : List (Instruction Offset)}
    (hcode : ∀ i ∈ code, i.Encodable) {start count : Nat} {done : List (Instruction Offset)}
    (hc : Contiguous start code) (hcount : code.length ≤ count) :
    (Decode.instructionsAfter count done).start ⟨start, codeBytes code⟩ =
      (.ok (done.reverse ++ code), ⟨start + (codeBytes code).length, []⟩) := by
  induction code generalizing start count done with
  | nil =>
    rw [List.append_nil]
    cases count <;> rfl
  | cons i code ih =>
    obtain ⟨count, rfl⟩ := Nat.exists_eq_add_one_of_ne_zero
      (Nat.ne_of_gt (Nat.lt_of_lt_of_le (Nat.succ_pos code.length) hcount))
    obtain ⟨rfl, hc⟩ := hc
    have henc := hcode i (by simp)
    have hne : (codeBytes (i :: code)).isEmpty = false := by
      simpa using codeBytes_ne_nil henc code
    have hcons : codeBytes (i :: code) = i.bytes ++ codeBytes code := rfl
    have hlen := Instruction.length_bytes henc
    rw [start_instructionsAfter_succ, hne, hcons, readsAt_instruction henc (codeBytes code), hlen]
    show (Decode.instructionsAfter count (i :: done)).start _ = _
    rw [ih (fun j hj => hcode j (by simp [hj])) hc (Nat.le_of_succ_le_succ hcount)]
    simp [hlen, Nat.add_assoc]

theorem instructionsAfter_found {count : Nat} {done code : List (Instruction Offset)}
    {c c' : Cursor} (hcount : c.rest.length ≤ count)
    (h : (Decode.instructionsAfter count done).start c = (.ok code, c')) :
    ∃ found, code = done.reverse ++ found ∧ c.rest = codeBytes found ∧
      (∀ i ∈ found, i.Encodable) ∧ Contiguous c.pos found := by
  induction count generalizing c done with
  | zero =>
    obtain ⟨rfl, rfl⟩ := start_pure_eq_ok.mp h
    refine ⟨[], by simp, ?_, by simp, trivial⟩
    exact List.eq_nil_of_length_eq_zero (Nat.le_zero.mp hcount)
  | succ count ih =>
    rw [start_instructionsAfter_succ] at h
    split at h
    · next hempty =>
      cases h
      exact ⟨[], by simp, List.isEmpty_iff.mp hempty, by simp, trivial⟩
    · split at h
      · next i c₁ hi =>
        obtain ⟨henc, hoffset, hrest, hpos⟩ := instruction_found hi
        have hlen := Instruction.length_bytes henc
        have hsize := i.size_pos
        have hsum := congrArg List.length hrest
        rw [List.length_append] at hsum
        -- each instruction takes some bytes, so as many steps as there are bytes are enough
        obtain ⟨found, hcode, hbytes, hall, hcont⟩ := ih (by omega) h
        refine ⟨i :: found, by simpa using hcode, ?_, ?_, ?_⟩
        · rw [hrest, hbytes]
          rfl
        · simpa using ⟨henc, hall⟩
        · rw [hpos, hlen] at hcont
          exact ⟨hoffset, hcont⟩
      · cases h

/-- Code has at least as many bytes as instructions. -/
theorem length_le_codeBytes {code : List (Instruction Offset)} (hcode : ∀ i ∈ code, i.Encodable) :
    code.length ≤ (codeBytes code).length := by
  induction code with
  | nil => exact Nat.le_refl _
  | cons i code ih =>
    have hrest := ih fun j hj => hcode j (by simp [hj])
    have hlen := Instruction.length_bytes (hcode i (by simp))
    have hpos := i.size_pos
    rw [codeBytes, List.flatMap_cons, List.length_append, ← codeBytes, List.length_cons]
    omega

/-- Code decodes to some instructions exactly if it is made of their bytes and
they stand one behind the other from its beginning. -/
theorem decode_eq_ok_iff {bytes : List UInt8} {code : List (Instruction Offset)} :
    decode bytes = .ok code ↔
      bytes = codeBytes code ∧ (∀ i ∈ code, i.Encodable) ∧ Contiguous 0 code := by
  have hdecode : decode bytes =
      ((Decode.instructionsAfter bytes.length []).start ⟨0, bytes⟩).1 := rfl
  rw [hdecode]
  constructor
  · intro h
    obtain ⟨found, rfl, hbytes, hall, hcont⟩ :=
      instructionsAfter_found (c := ⟨0, bytes⟩) (Nat.le_refl _) (Prod.ext h rfl)
    exact ⟨hbytes, hall, hcont⟩
  · rintro ⟨rfl, hall, hcont⟩
    rw [start_instructionsAfter hall hcont (length_le_codeBytes hall)]
    rfl

end Code

end CilProbe
