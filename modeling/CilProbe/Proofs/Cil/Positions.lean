/-
CilProbe/Proofs/Cil/Positions.lean

Positions in contiguous code.  Every instruction takes at least one byte, so
positions go up along the code (`sorted_offsets`), the next instruction starts
where one stops (`offset_eq_stop`), and a position is that of at most one
instruction.  Hence the index of the code finds exactly what is there
(`indexByOffset_eq_some`), and looking up by halving finds every boundary
(`contains_of_iff`).
-/
import CilProbe.Cil.Boundary
import CilProbe.Proofs.Cil.Encoding

namespace CilProbe

variable {code : List (Instruction Offset)} {start : Nat}

/-! ### Ends -/

/-- Where code that starts at a position ends. -/
def codeEnd : Nat → List (Instruction Offset) → Nat
  | start, [] => start
  | start, i :: code => codeEnd (start + i.size) code

theorem codeEnd_append (start : Nat) (code more : List (Instruction Offset)) :
    codeEnd start (code ++ more) = codeEnd (codeEnd start code) more := by
  induction code generalizing start with
  | nil => rfl
  | cons i code ih => exact ih (start + i.size)

theorem contiguous_append {more : List (Instruction Offset)} :
    Contiguous start (code ++ more) ↔
      Contiguous start code ∧ Contiguous (codeEnd start code) more := by
  induction code generalizing start with
  | nil => exact (true_and _).to_iff.symm
  | cons i code ih =>
    show i.offset.toNat = start ∧ Contiguous (start + i.size) (code ++ more) ↔
      (i.offset.toNat = start ∧ Contiguous (start + i.size) code) ∧
        Contiguous (codeEnd (start + i.size) code) more
    rw [ih, and_assoc]

theorem start_le_codeEnd (start : Nat) (code : List (Instruction Offset)) :
    start ≤ codeEnd start code := by
  induction code generalizing start with
  | nil => exact Nat.le_refl _
  | cons i code ih => exact Nat.le_trans (Nat.le_add_right _ _) (ih (start + i.size))

/-- Code ends behind its bytes. -/
theorem codeEnd_eq (h : ∀ i ∈ code, i.Encodable) (start : Nat) :
    codeEnd start code = start + (codeBytes code).length := by
  induction code generalizing start with
  | nil => rfl
  | cons i code ih =>
    have hlen := Instruction.length_bytes (h i (by simp))
    rw [codeEnd, ih fun j hj => h j (by simp [hj])]
    unfold codeBytes
    rw [List.flatMap_cons, List.length_append, hlen, Nat.add_assoc]

theorem codeEnd_of_decode {bytes : List UInt8} (h : decode bytes = .ok code) :
    codeEnd 0 code = bytes.length := by
  obtain ⟨hbytes, hencodable, -⟩ := decode_eq_ok_iff.mp h
  rw [codeEnd_eq hencodable, Nat.zero_add, hbytes]

theorem size_of_decode {bytes : List UInt8} (h : decode bytes = .ok code)
    (hshort : bytes.length ≤ Offset.last) :
    (UInt32.ofNat bytes.length).toNat = codeEnd 0 code := by
  rw [codeEnd_of_decode h]
  exact UInt32.toNat_ofNat_of_lt' (Nat.lt_succ_of_le hshort)

/-! ### Order -/

theorem start_le_offset (hc : Contiguous start code) {i : Instruction Offset} (hi : i ∈ code) :
    start ≤ i.offset.toNat := by
  induction code generalizing start with
  | nil => cases hi
  | cons j code ih =>
    obtain ⟨hj, hc⟩ := hc
    rcases List.mem_cons.mp hi with rfl | hi
    · exact Nat.le_of_eq hj.symm
    · exact Nat.le_trans (Nat.le_add_right _ _) (ih hc hi)

theorem stop_le_codeEnd (hc : Contiguous start code) {i : Instruction Offset} (hi : i ∈ code) :
    i.stop ≤ codeEnd start code := by
  induction code generalizing start with
  | nil => cases hi
  | cons j code ih =>
    obtain ⟨rfl, hc⟩ := hc
    rcases List.mem_cons.mp hi with rfl | hi
    · exact start_le_codeEnd _ code
    · exact ih hc hi

theorem offset_lt_stop (i : Instruction Offset) : i.offset.toNat < i.stop :=
  Nat.lt_add_of_pos_right i.size_pos

theorem offset_lt_codeEnd (hc : Contiguous start code) {i : Instruction Offset} (hi : i ∈ code) :
    i.offset.toNat < codeEnd start code :=
  Nat.lt_of_lt_of_le (offset_lt_stop i) (stop_le_codeEnd hc hi)

/-- Positions go up along the code. -/
theorem sorted_offsets (hc : Contiguous start code) :
    (code.map Instruction.offset).Pairwise (· < ·) := by
  induction code generalizing start with
  | nil => exact .nil
  | cons i code ih =>
    obtain ⟨rfl, hc⟩ := hc
    refine List.Pairwise.cons ?_ (ih hc)
    intro offset hoffset
    obtain ⟨j, hj, rfl⟩ := List.mem_map.mp hoffset
    rw [UInt32.lt_iff_toNat_lt]
    exact Nat.lt_of_lt_of_le (offset_lt_stop i) (start_le_offset hc hj)

theorem nodup_offsets (hc : Contiguous start code) : (code.map Instruction.offset).Nodup :=
  (sorted_offsets hc).imp fun h => UInt32.ne_of_lt h

/-- An instruction starts where the one before it stops. -/
theorem offset_eq_stop (hc : Contiguous start code) {k : Nat} {i j : Instruction Offset}
    (hi : code[k]? = some i) (hj : code[k + 1]? = some j) : j.offset.toNat = i.stop := by
  induction code generalizing start k with
  | nil => cases hi
  | cons i' code ih =>
    obtain ⟨rfl, hc⟩ := hc
    rcases k with - | k
    · obtain rfl : i' = i := by simpa using hi
      rcases code with - | ⟨j', code⟩
      · cases hj
      · obtain rfl : j' = j := by simpa using hj
        exact hc.1
    · exact ih hc hi hj

/-- The last instruction stops where the code ends. -/
theorem codeEnd_eq_stop (hc : Contiguous start code) {i : Instruction Offset}
    (hi : code.getLast? = some i) : codeEnd start code = i.stop := by
  obtain ⟨before, rfl⟩ := List.getLast?_eq_some_iff.mp hi
  obtain ⟨-, hi', -⟩ := contiguous_append.mp hc
  rw [codeEnd_append, Instruction.stop, hi']
  rfl

/-- Two instructions at one position are the same, if no two stand at one position. -/
theorem eq_of_offset_eq_of_nodup (h : (code.map Instruction.offset).Nodup) {k k' : Nat}
    {i i' : Instruction Offset} (hi : code[k]? = some i) (hi' : code[k']? = some i')
    (heq : i.offset = i'.offset) : k = k' := by
  have hk : (code.map Instruction.offset)[k]? = some i.offset := by simp [hi]
  have hk' : (code.map Instruction.offset)[k']? = some i.offset := by simp [hi', heq]
  have hlt := (List.getElem?_eq_some_iff.mp hk).1
  exact (List.getElem?_inj hlt h).mp (hk.trans hk'.symm)

theorem eq_of_offset_eq (hc : Contiguous start code) {k k' : Nat} {i i' : Instruction Offset}
    (hi : code[k]? = some i) (hi' : code[k']? = some i') (h : i.offset = i'.offset) : k = k' :=
  eq_of_offset_eq_of_nodup (nodup_offsets hc) hi hi' h

/-! ### Next to each other -/

theorem toNat_nextOffset {i : Instruction Offset} (h : i.stop ≤ Offset.last) :
    i.nextOffset.toNat = i.stop := by
  -- an instruction that ends within the positions has a size that fits a word
  have hsize : i.size < 0x100000000 :=
    Nat.lt_of_le_of_lt (Nat.le_trans (Nat.le_add_left _ _) h) (by decide)
  rw [Instruction.nextOffset, Offset.toNat_after, Nat.mod_eq_of_lt hsize]
  exact Nat.min_eq_left h

/-- Control goes on to the next instruction. -/
theorem nextOffset_eq_offset (hc : Contiguous start code) (hend : codeEnd start code ≤ Offset.last)
    {k : Nat} {i j : Instruction Offset} (hi : code[k]? = some i) (hj : code[k + 1]? = some j) :
    i.nextOffset = j.offset := by
  apply UInt32.toNat_inj.mp
  rw [toNat_nextOffset, offset_eq_stop hc hi hj]
  exact Nat.le_trans (stop_le_codeEnd hc (List.mem_of_getElem? hi)) hend

/-- If there is an instruction where control goes on to, it is the next one. -/
theorem next_of_offset_eq (hc : Contiguous start code) (hend : codeEnd start code ≤ Offset.last)
    {k : Nat} {i j : Instruction Offset} (hi : code[k]? = some i) (hj : j ∈ code)
    (h : j.offset = i.nextOffset) : code[k + 1]? = some j := by
  have hstop := stop_le_codeEnd hc (List.mem_of_getElem? hi)
  have hk := (List.getElem?_eq_some_iff.mp hi).1
  rcases Nat.lt_or_ge (k + 1) code.length with hlt | hge
  · have hnext := List.getElem?_eq_getElem hlt
    obtain ⟨n, hn⟩ := List.mem_iff_getElem?.mp hj
    rw [nextOffset_eq_offset hc hend hi hnext] at h
    rwa [← eq_of_offset_eq hc hn hnext h]
  · have hlast : code.getLast? = some i := by
      rw [List.getLast?_eq_getElem?, ← hi]
      congr 1
      omega
    have hlt := offset_lt_codeEnd hc hj
    rw [codeEnd_eq_stop hc hlast, h, toNat_nextOffset (by omega)] at hlt
    exact absurd hlt (Nat.lt_irrefl _)

/-! ### The index -/

theorem foldl_index (h : (code.map Instruction.offset).Nodup) (map : Std.HashMap Offset Nat)
    (n : Nat) (offset : Offset) (k : Nat) :
    (code.foldl (fun (map, n) i => (map.insert i.offset n, n + 1)) (map, n)).1[offset]? =
        some k ↔
      (∃ j i, code[j]? = some i ∧ i.offset = offset ∧ n + j = k) ∨
        map[offset]? = some k ∧ ∀ i ∈ code, i.offset ≠ offset := by
  induction code generalizing map n with
  | nil => simp
  | cons i code ih =>
    obtain ⟨hi, h⟩ := List.nodup_cons.mp h
    have hne : ∀ j ∈ code, j.offset ≠ i.offset := fun j hj heq =>
      hi (heq ▸ List.mem_map_of_mem hj)
    rw [List.foldl_cons, ih h, Std.HashMap.getElem?_insert, List.forall_mem_cons]
    constructor
    · rintro (⟨j, i', hi', rfl, rfl⟩ | ⟨hmap, hall⟩)
      · exact .inl ⟨j + 1, i', hi', rfl, by omega⟩
      · by_cases heq : i.offset = offset
        · rw [if_pos (beq_iff_eq.mpr heq)] at hmap
          cases hmap
          exact .inl ⟨0, i, rfl, heq, rfl⟩
        · rw [if_neg (by simpa using heq)] at hmap
          exact .inr ⟨hmap, heq, hall⟩
    · rintro (⟨j, i', hi', rfl, rfl⟩ | ⟨hmap, heq, hall⟩)
      · rcases j with - | j
        · obtain rfl : i = i' := by simpa using hi'
          exact .inr ⟨by simp, hne⟩
        · exact .inl ⟨j, i', hi', rfl, by omega⟩
      · rw [if_neg (by simpa using heq)]
        exact .inr ⟨hmap, hall⟩

/-- The index of code finds the instructions that are there, if no two of them stand at
one position. -/
theorem indexByOffset_eq_some_of_nodup (h : (code.map Instruction.offset).Nodup)
    {offset : Offset} {k : Nat} :
    (indexByOffset code)[offset]? = some k ↔ ∃ i, code[k]? = some i ∧ i.offset = offset := by
  unfold indexByOffset
  rw [foldl_index h]
  constructor
  · rintro (⟨j, i, hi, hoffset, hj⟩ | ⟨hempty, -⟩)
    · rw [Nat.zero_add] at hj
      exact ⟨i, hj ▸ hi, hoffset⟩
    · rw [Std.HashMap.getElem?_empty] at hempty
      cases hempty
  · rintro ⟨i, hi, hoffset⟩
    exact .inl ⟨k, i, hi, hoffset, Nat.zero_add k⟩

theorem indexByOffset_eq_some (hc : Contiguous start code) {offset : Offset} {k : Nat} :
    (indexByOffset code)[offset]? = some k ↔ ∃ i, code[k]? = some i ∧ i.offset = offset :=
  indexByOffset_eq_some_of_nodup (nodup_offsets hc)

/-- The positions in the index are those of the instructions. -/
theorem exists_indexByOffset_iff (hc : Contiguous start code) {offset : Offset} :
    (∃ k, (indexByOffset code)[offset]? = some k) ↔ ∃ i ∈ code, i.offset = offset := by
  simp only [indexByOffset_eq_some hc, List.mem_iff_getElem?]
  constructor
  · rintro ⟨k, i, hk, hi⟩
    exact ⟨i, ⟨k, hk⟩, hi⟩
  · rintro ⟨i, ⟨k, hk⟩, hi⟩
    exact ⟨k, i, hk, hi⟩

theorem indexByOffset_eq_none (hc : Contiguous start code) {offset : Offset} :
    (indexByOffset code)[offset]? = none ↔ ∀ i ∈ code, i.offset ≠ offset := by
  have hnone : (¬∃ k, (indexByOffset code)[offset]? = some k) ↔ _ :=
    not_congr (exists_indexByOffset_iff hc)
  simp only [not_exists, not_and] at hnone
  rw [Option.eq_none_iff_forall_ne_some]
  exact hnone

/-! ### Boundaries -/

namespace Boundaries

/-- Positions in order compare as their numbers do. -/
theorem getElem_lt_iff {b : Boundaries} (hsorted : b.positions.toList.Pairwise (· < ·))
    {j k : Nat} {first second : Offset} (hj : b.positions[j]? = some first)
    (hk : b.positions[k]? = some second) : first < second ↔ j < k := by
  obtain ⟨hjl, rfl⟩ := Array.getElem?_eq_some_iff.mp hj
  obtain ⟨hkl, rfl⟩ := Array.getElem?_eq_some_iff.mp hk
  have hpair := List.pairwise_iff_getElem.mp hsorted
  constructor
  · intro hlt
    rcases Nat.lt_trichotomy j k with h | rfl | h
    · exact h
    · exact absurd hlt (UInt32.lt_irrefl _)
    · exact absurd (UInt32.lt_trans hlt (hpair k j hkl hjl h)) (UInt32.lt_irrefl _)
  · exact hpair j k hjl hkl

/-- Halving does not lose the position looked for. -/
theorem narrow_eq {b : Boundaries} {offset : Offset}
    (hsorted : b.positions.toList.Pairwise (· < ·)) {fuel base size k : Nat}
    (hfuel : size ≤ fuel) (hsize : base + size ≤ b.positions.size)
    (hk : b.positions[k]? = some offset) (hbase : base ≤ k) (hlt : k < base + size) :
    b.narrow offset fuel base size = k := by
  induction fuel generalizing base size with
  | zero => omega
  | succ fuel ih =>
    unfold narrow
    by_cases hone : size ≤ 1
    · rw [if_pos hone]
      omega
    · have hmiddle : base + size / 2 < b.positions.size := by omega
      have hat := Array.getElem?_eq_getElem hmiddle
      have hcompare := getElem_lt_iff hsorted hk hat
      rw [if_neg hone]
      simp only [hat, Option.any_some, decide_eq_true_eq]
      split
      · next hless =>
        have hk' := hcompare.mp hless
        exact ih (by omega) (by omega) hbase (by omega)
      · next hless =>
        have hk' : ¬k < base + size / 2 := fun h => hless (hcompare.mpr h)
        exact ih (by omega) (by omega) (by omega) (by omega)

/-- Positions in order are found exactly if they are there. -/
theorem contains_iff {b : Boundaries} {offset : Offset}
    (hsorted : b.positions.toList.Pairwise (· < ·)) :
    b.contains offset = true ↔ offset ∈ b.positions := by
  unfold contains
  simp only [beq_iff_eq]
  constructor
  · intro h
    exact Array.mem_of_getElem? h
  · intro h
    obtain ⟨k, hk⟩ := Array.mem_iff_getElem?.mp h
    have hlt := (Array.getElem?_eq_some_iff.mp hk).1
    rw [narrow_eq hsorted (Nat.le_refl _) (by omega) hk (Nat.zero_le _) (by omega), hk]

/-- The boundaries of contiguous code are the positions of its instructions and
its end. -/
theorem contains_of_iff (hc : Contiguous start code) {size offset : Offset}
    (hsize : size.toNat = codeEnd start code) :
    (Boundaries.of code size).contains offset = true ↔
      (∃ i ∈ code, i.offset = offset) ∨ offset = size := by
  have hsorted : (Boundaries.of code size).positions.toList.Pairwise (· < ·) := by
    unfold Boundaries.of
    simp only [Array.toList_push]
    refine List.pairwise_append.mpr ⟨sorted_offsets hc, List.pairwise_singleton _ _, ?_⟩
    intro o ho o' ho'
    obtain ⟨i, hi, rfl⟩ := List.mem_map.mp ho
    obtain rfl := List.mem_singleton.mp ho'
    rw [UInt32.lt_iff_toNat_lt, hsize]
    exact offset_lt_codeEnd hc hi
  rw [contains_iff hsorted]
  simp [Boundaries.of]

end Boundaries

end CilProbe
