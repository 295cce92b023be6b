/-
CilProbe/Proofs/Cil/Tiling.lean

Decoded code tiles its bytes.  The instructions stand one behind the other from the first byte
to the last, each with as many bytes as its size says, and each target is as far behind its
instruction as the displacement in the bytes says (`displacementsIn_bytes`).  So the bytes can be
made from the instructions again, two runs of bytes with the same instructions are the same, and
bytes up to an instruction hold just the instructions in front of it (`decode_take`).
-/
import Mathlib.Algebra.Ring.Nat
import Mathlib.Data.List.TakeWhile
import CilProbe.Proofs.Cil.Operands
import CilProbe.Proofs.Cil.Positions

namespace CilProbe

/-! ### Displacements as they stand in bytes -/

/-- The signed number that the bytes stand for, least significant first. -/
def LittleEndian.signed (bytes : List UInt8) : Int := (value bytes : Int).bmod (256 ^ bytes.length)

/-- `count` signed numbers of four bytes each. -/
def signedWords : Nat → List UInt8 → List Int
  | 0, _ => []
  | count + 1, bytes => LittleEndian.signed (bytes.take 4) :: signedWords count (bytes.drop 4)

/-- The displacements in an operand of the given kind that the bytes begin with. -/
def displacementsIn : OperandKind → List UInt8 → List Int
  | .shortBranch, bytes => [LittleEndian.signed (bytes.take 1)]
  | .branch, bytes => [LittleEndian.signed (bytes.take 4)]
  | .switch, bytes => signedWords (LittleEndian.value (bytes.take 4)) (bytes.drop 4)
  | _, _ => []

theorem LittleEndian.signed_int8 (i : Int8) : signed [i.toUInt8] = i.toInt := by
  show ((i.toUInt8.toNat + 256 * 0 : Nat) : Int).bmod (256 ^ 1) = i.toBitVec.toInt
  exact (BitVec.toInt_eq_toNat_bmod i.toBitVec).symm

theorem LittleEndian.signed_ofInt32 (i : Int32) : signed (ofInt32 i) = i.toInt := by
  have hvalue : value (ofInt32 i) = i.toUInt32.toNat := by
    rw [ofInt32, ofUInt32, value_encode]
    exact Nat.mod_eq_of_lt i.toUInt32.toNat_lt
  unfold signed
  rw [hvalue, length_ofInt32]
  show (i.toBitVec.toNat : Int).bmod (256 ^ 4) = i.toBitVec.toInt
  exact (BitVec.toInt_eq_toNat_bmod i.toBitVec).symm

theorem signedWords_flatMap (words : List Int32) (rest : List UInt8) :
    signedWords words.length (words.flatMap LittleEndian.ofInt32 ++ rest) =
      words.map Int32.toInt := by
  induction words with
  | nil => rfl
  | cons i words ih =>
    have hlength := LittleEndian.length_ofInt32 i
    rw [List.length_cons, List.flatMap_cons, List.append_assoc, signedWords,
      List.take_left' hlength, List.drop_left' hlength, LittleEndian.signed_ofInt32, ih,
      List.map_cons]

/-- The displacements in the bytes of an operand are those of its targets. -/
theorem displacementsIn_bytes {next : Nat} {kind : OperandKind} {operand : Operand Offset}
    (h : operand.Encodable next kind) (rest : List UInt8) :
    displacementsIn kind (operand.bytes next kind ++ rest) =
      operand.targets.map (Operand.displacement next) := by
  cases kind <;> cases operand <;> try exact h.elim
  case shortBranch.target t =>
    show [LittleEndian.signed [_]] = _
    rw [LittleEndian.signed_int8, toInt_ofInt8 h]
    rfl
  case branch.target t =>
    show [LittleEndian.signed ((LittleEndian.ofInt32 _ ++ rest).take 4)] = _
    rw [List.take_left' (LittleEndian.length_ofInt32 _), LittleEndian.signed_ofInt32,
      toInt_ofInt32 h]
    rfl
  case switch.switch ts =>
    obtain ⟨hlength, hreach⟩ := h
    let words := ts.map fun t => Int32.ofInt (Operand.displacement next t)
    have hwords : words.length = ts.length := List.length_map _
    have hbytes : Operand.bytes next .switch (.switch ts) ++ rest =
        LittleEndian.encode 4 ts.length ++ (words.flatMap LittleEndian.ofInt32 ++ rest) := by
      simp [words, Operand.bytes_switch, List.flatMap_map]
    have hcount : LittleEndian.value (LittleEndian.encode 4 ts.length) = ts.length := by
      rw [LittleEndian.value_encode]
      exact Nat.mod_eq_of_lt hlength
    show signedWords _ _ = _
    rw [hbytes, List.take_left' (LittleEndian.length_encode _ _),
      List.drop_left' (LittleEndian.length_encode _ _), hcount, ← hwords, signedWords_flatMap,
      List.map_map]
    exact List.map_congr_left fun t ht => toInt_ofInt32 (hreach t ht)
  -- operands of all other kinds have no targets
  all_goals rfl

/-! ### Bytes up to an instruction and from there on -/

variable {bytes : List UInt8} {code : List (Instruction Offset)} {i : Instruction Offset}

theorem codeBytes_append (code more : List (Instruction Offset)) :
    codeBytes (code ++ more) = codeBytes code ++ codeBytes more := List.flatMap_append

/-- The bytes of the first instructions are decoded to them. -/
theorem decode_codeBytes_take (h : decode bytes = .ok code) (k : Nat) :
    decode (codeBytes (code.take k)) = .ok (code.take k) := by
  obtain ⟨-, hcode, hcont⟩ := decode_eq_ok_iff.mp h
  rw [← List.take_append_drop k code] at hcont
  exact decode_eq_ok_iff.mpr
    ⟨rfl, fun i hi => hcode i (List.mem_of_mem_take hi), (contiguous_append.mp hcont).1⟩

/-- In front of an instruction stand the bytes of those before it. -/
theorem length_codeBytes_take (h : decode bytes = .ok code) {k : Nat} (hi : code[k]? = some i) :
    (codeBytes (code.take k)).length = i.offset.toNat := by
  obtain ⟨hk, rfl⟩ := List.getElem?_eq_some_iff.mp hi
  obtain ⟨-, hcode, hcont⟩ := decode_eq_ok_iff.mp h
  rw [← List.take_append_drop k code, List.drop_eq_getElem_cons hk] at hcont
  obtain ⟨-, hoffset, -⟩ := contiguous_append.mp hcont
  rw [hoffset, codeEnd_eq (fun j hj => hcode j (List.mem_of_mem_take hj)), Nat.zero_add]

theorem take_offset (h : decode bytes = .ok code) {k : Nat} (hi : code[k]? = some i) :
    bytes.take i.offset.toNat = codeBytes (code.take k) := by
  conv_lhs => rw [(decode_eq_ok_iff.mp h).1, ← List.take_append_drop k code, codeBytes_append]
  exact List.take_left' (length_codeBytes_take h hi)

/-- An instruction stands at its position. -/
theorem exists_drop_offset (h : decode bytes = .ok code) (hi : i ∈ code) :
    ∃ rest, bytes.drop i.offset.toNat = i.bytes ++ rest := by
  obtain ⟨k, hk⟩ := List.mem_iff_getElem?.mp hi
  obtain ⟨hlt, hget⟩ := List.getElem?_eq_some_iff.mp hk
  have hparts : bytes = codeBytes (code.take k) ++ codeBytes (code.drop k) := by
    rw [← codeBytes_append, List.take_append_drop, ← (decode_eq_ok_iff.mp h).1]
  have hdrop : codeBytes (code.drop k) = i.bytes ++ codeBytes (code.drop (k + 1)) := by
    rw [List.drop_eq_getElem_cons hlt, hget]
    rfl
  refine ⟨codeBytes (code.drop (k + 1)), ?_⟩
  rw [hparts, List.drop_left' (length_codeBytes_take h hk), hdrop]

/-- The bytes that an instruction takes are those it is written to. -/
theorem take_size_drop_offset (h : decode bytes = .ok code) (hi : i ∈ code) :
    (bytes.drop i.offset.toNat).take i.size = i.bytes := by
  obtain ⟨rest, hrest⟩ := exists_drop_offset h hi
  rw [hrest]
  exact List.take_left' (Instruction.length_bytes ((decode_eq_ok_iff.mp h).2.1 i hi))

/-- The targets of an instruction, counted from where it stops, are the displacements that
stand behind its operation code. -/
theorem displacementsIn_drop (h : decode bytes = .ok code) (hi : i ∈ code) :
    displacementsIn i.opcode.info.operand (bytes.drop (i.offset.toNat + i.opcode.size)) =
      i.operand.targets.map (Operand.displacement i.stop) := by
  have hencodable := (decode_eq_ok_iff.mp h).2.1 i hi
  obtain ⟨rest, hrest⟩ := exists_drop_offset h hi
  have hoperand : bytes.drop (i.offset.toNat + i.opcode.size) =
      i.operand.bytes i.stop i.opcode.info.operand ++ rest := by
    rw [← List.drop_drop, hrest, Instruction.bytes, List.append_assoc]
    exact List.drop_left' (Opcode.length_bytes i.opcode)
  rw [hoperand, displacementsIn_bytes hencodable.2]

/-- The instructions in front of a position are those that stand before the one there. -/
theorem takeWhile_offset_lt (h : decode bytes = .ok code) {k : Nat} (hk : code[k]? = some i) :
    code.takeWhile (fun j => j.offset.toNat < i.offset.toNat) = code.take k := by
  obtain ⟨hlt, hget⟩ := List.getElem?_eq_some_iff.mp hk
  have hcont := (decode_eq_ok_iff.mp h).2.2
  rw [← List.take_append_drop k code] at hcont
  obtain ⟨hfront, hback⟩ := contiguous_append.mp hcont
  have hend : codeEnd 0 (code.take k) = i.offset.toNat := by
    rw [List.drop_eq_getElem_cons hlt, hget] at hback
    exact hback.1.symm
  conv_lhs => rw [← List.take_append_drop k code]
  rw [List.takeWhile_append_of_pos, List.drop_eq_getElem_cons hlt, hget,
    List.takeWhile_cons_of_neg (by simp), List.append_nil]
  intro j hj
  simpa [hend] using offset_lt_codeEnd hfront hj

/-- Bytes up to an instruction are decoded to the instructions in front of it. -/
theorem decode_take (h : decode bytes = .ok code) (hi : i ∈ code) :
    decode (bytes.take i.offset.toNat) =
      .ok (code.takeWhile fun j => j.offset.toNat < i.offset.toNat) := by
  obtain ⟨k, hk⟩ := List.mem_iff_getElem?.mp hi
  rw [take_offset h hk, takeWhile_offset_lt h hk]
  exact decode_codeBytes_take h k

/-- All the instructions stand in front of the end. -/
theorem takeWhile_offset_lt_length (h : decode bytes = .ok code) :
    code.takeWhile (fun j => j.offset.toNat < bytes.length) = code := by
  rw [List.takeWhile_eq_self_iff]
  intro j hj
  have hlt := offset_lt_codeEnd (decode_eq_ok_iff.mp h).2.2 hj
  rw [codeEnd_of_decode h] at hlt
  exact decide_eq_true hlt

/-! ### Tiling -/

/-- Decoded code tiles its bytes and loses nothing of them.  The first instruction stands at 0,
each further one where the one before it ends, and the last ends with the bytes.  Each is
known, with an operand of the kind that its operation code announces; its bytes are those at
its position, and its targets lie behind its end by just the signed displacements that follow
its operation code.  Writing the instructions in their own forms gives the bytes back, so no
other bytes have the same instructions.  And bytes up to an instruction, or all of them, are
decoded to the instructions in front. -/
theorem decode_tiles (h : decode bytes = .ok code) (hshort : bytes.length < 2 ^ 32) :
    (∀ i, code.head? = some i → i.offset = 0) ∧
      (∀ k i j, code[k]? = some i → code[k + 1]? = some j → i.nextOffset = j.offset) ∧
      (∀ i, code.getLast? = some i → i.nextOffset.toNat = bytes.length) ∧
      (∀ i ∈ code, i.Known ∧ i.nextOffset.toNat = i.offset.toNat + i.size ∧
        (bytes.drop i.offset.toNat).take i.size = i.bytes ∧
        i.operand.targets.map (fun t => (t.toNat : Int)) =
          (displacementsIn i.opcode.info.operand
            (bytes.drop (i.offset.toNat + i.opcode.size))).map
              ((i.nextOffset.toNat : Int) + ·)) ∧
      bytes = codeBytes code ∧
      (∀ bytes', decode bytes' = .ok code → bytes' = bytes) ∧
      ∀ n, (n = bytes.length ∨ ∃ i ∈ code, i.offset.toNat = n) →
        decode (bytes.take n) = .ok (code.takeWhile fun i => i.offset.toNat < n) := by
  obtain ⟨hbytes, hencodable, hcont⟩ := decode_eq_ok_iff.mp h
  have hsize := codeEnd_of_decode h
  have hend : codeEnd 0 code ≤ Offset.last := hsize ▸ Nat.le_of_lt_succ hshort
  have hnext : ∀ i ∈ code, i.nextOffset.toNat = i.stop := fun i hi =>
    toNat_nextOffset (Nat.le_trans (stop_le_codeEnd hcont hi) hend)
  refine ⟨?first, fun k i j hi hj => nextOffset_eq_offset hcont hend hi hj, ?last, ?each, hbytes,
    ?injective, ?upTo⟩
  case first =>
    intro i hi
    obtain ⟨code, rfl⟩ := List.head?_eq_some_iff.mp hi
    exact UInt32.toNat_inj.mp hcont.1
  case last =>
    intro i hi
    rw [hnext i (List.mem_of_getLast? hi), ← codeEnd_eq_stop hcont hi, hsize]
  case each =>
    intro i hi
    refine ⟨(hencodable i hi).known, hnext i hi, take_size_drop_offset h hi, ?_⟩
    rw [displacementsIn_drop h hi, hnext i hi, List.map_map]
    refine List.map_congr_left fun t _ => ?_
    show (t.toNat : Int) = i.stop + (t.toNat - i.stop)
    omega
  case injective =>
    intro bytes' h'
    rw [(decode_eq_ok_iff.mp h').1, ← hbytes]
  case upTo =>
    rintro n (rfl | ⟨i, hi, rfl⟩)
    · rw [List.take_length, takeWhile_offset_lt_length h, h]
    · exact decode_take h hi

/-- A branch over a table that goes back to the start, a short branch and a return, cut before
the return. -/
theorem decode_tiles_backwardSwitch :
    ∃ code, decode [0x45, 1, 0, 0, 0, 0xF7, 0xFF, 0xFF, 0xFF, 0x2B, 0, 0x2A] = .ok code ∧
      (∃ i ∈ code, i.operand.targets = [0]) ∧
      decode [0x45, 1, 0, 0, 0, 0xF7, 0xFF, 0xFF, 0xFF, 0x2B, 0] =
        .ok (code.takeWhile fun i => i.offset.toNat < 11) := by
  obtain ⟨code, h, hback, hreturn⟩ : ∃ code,
      decode [0x45, 1, 0, 0, 0, 0xF7, 0xFF, 0xFF, 0xFF, 0x2B, 0, 0x2A] = .ok code ∧
        (∃ i ∈ code, i.operand.targets = [0]) ∧ ∃ i ∈ code, i.offset.toNat = 11 :=
    ⟨_, rfl, by decide +kernel, by decide +kernel⟩
  obtain ⟨-, -, -, -, -, -, hupTo⟩ := decode_tiles h (by decide)
  exact ⟨code, h, hback, hupTo 11 (.inr hreturn)⟩

end CilProbe
