/-
CilProbe/Proofs/Probe/Moves.lean

Where positions go when a method is instrumented.  The images of the instructions
stand one behind the other and none is empty, so positions keep their order
(`edge_lt_edge`), everything of the method ends up between the entry probe and the
tail, and where there was a boundary between instructions there is one now.
-/
import CilProbe.Proofs.Check.Structure
import CilProbe.Proofs.Probe.Relocated

namespace CilProbe

/-! ### Boundaries -/

/-- Between two parts of contiguous code there is a boundary. -/
theorem atBoundary_codeEnd {before after : List (Instruction Offset)} {start : Nat}
    (h : Contiguous start (before ++ after)) :
    AtBoundary (before ++ after) (.ofNat (codeEnd start (before ++ after)))
      (.ofNat (codeEnd start before)) := by
  rcases after with - | ⟨i, after⟩
  · rw [List.append_nil]
    exact .inr rfl
  · obtain ⟨-, hi, -⟩ := contiguous_append.mp h
    refine .inl ⟨i, by simp, ?_⟩
    rw [← hi]
    exact UInt32.ofNat_toNat.symm

theorem codeEnd_lt {start : Nat} {code : List (Instruction Offset)} (h : code ≠ []) :
    start < codeEnd start code := by
  obtain ⟨i, code, rfl⟩ := List.exists_cons_of_ne_nil h
  exact Nat.lt_of_lt_of_le (Nat.lt_add_of_pos_right i.size_pos) (start_le_codeEnd _ code)

namespace CodeParts

variable (c : CodeParts)

/-! ### Parts in a row -/

/-- Where the image of the instruction with the given number starts. -/
def imageStart (k : Nat) : Nat := codeEnd c.innerStart (c.images.take k).flatten

/-- What is behind the code of the method. -/
def tail : List (Instruction Offset) := c.catch_ ++ (c.finally_ ++ c.epilogue)

theorem imageStart_zero : c.imageStart 0 = c.innerStart := by
  rw [imageStart, List.take_zero]
  rfl

theorem imageStart_length : c.imageStart c.images.length = c.innerEnd := by
  rw [imageStart, List.take_length]
  rfl

theorem imageStart_succ {k : Nat} {image : List (Instruction Offset)}
    (h : c.images[k]? = some image) : c.imageStart (k + 1) = codeEnd (c.imageStart k) image := by
  rw [imageStart, List.take_add_one, h, Option.toList_some, List.flatten_append, codeEnd_append,
    List.flatten_singleton, imageStart]

/-- The code in front of an image, and the rest. -/
theorem all_eq_split (k : Nat) :
    c.all = (c.entry ++ (c.images.take k).flatten) ++ ((c.images.drop k).flatten ++ c.tail) := by
  have hinner : c.inner = (c.images.take k).flatten ++ (c.images.drop k).flatten := by
    rw [← List.flatten_append, List.take_append_drop]
    rfl
  unfold all tail
  rw [hinner]
  simp only [List.append_assoc]

/-- The code in front of an image, the image, and what is behind it. -/
theorem all_eq_image {k : Nat} {image : List (Instruction Offset)}
    (h : c.images[k]? = some image) :
    c.all = (c.entry ++ (c.images.take k).flatten) ++
      (image ++ ((c.images.drop (k + 1)).flatten ++ c.tail)) := by
  obtain ⟨hk, rfl⟩ := List.getElem?_eq_some_iff.mp h
  rw [c.all_eq_split k, List.drop_eq_getElem_cons hk, List.flatten_cons,
    List.append_assoc c.images[k]]

theorem mem_all_of_mem {k : Nat} {image : List (Instruction Offset)}
    (h : c.images[k]? = some image) {j : Instruction Offset} (hj : j ∈ image) : j ∈ c.all := by
  rw [c.all_eq_image h]
  simp [hj]

theorem codeEnd_before (k : Nat) :
    codeEnd 0 (c.entry ++ (c.images.take k).flatten) = c.imageStart k := by
  rw [codeEnd_append]
  rfl

/-- The parts stand in this order. -/
theorem starts_le : c.innerStart ≤ c.innerEnd ∧ c.innerEnd ≤ c.finallyStart ∧
    c.finallyStart ≤ c.epilogueStart ∧ c.epilogueStart ≤ codeEnd 0 c.all := by
  refine ⟨start_le_codeEnd _ _, start_le_codeEnd _ _, start_le_codeEnd _ _, ?_⟩
  unfold all
  rw [codeEnd_append, codeEnd_append, codeEnd_append, codeEnd_append]
  exact start_le_codeEnd _ _

/-- The code in front of the catch handler, and the rest. -/
theorem split_catch :
    c.all = (c.entry ++ c.inner) ++ (c.catch_ ++ (c.finally_ ++ c.epilogue)) ∧
      codeEnd 0 (c.entry ++ c.inner) = c.innerEnd := by
  refine ⟨by simp [all], ?_⟩
  rw [codeEnd_append]
  rfl

/-- The code in front of the finally handler, and the rest. -/
theorem split_finally :
    c.all = (c.entry ++ (c.inner ++ c.catch_)) ++ (c.finally_ ++ c.epilogue) ∧
      codeEnd 0 (c.entry ++ (c.inner ++ c.catch_)) = c.finallyStart := by
  refine ⟨by simp [all], ?_⟩
  rw [codeEnd_append, codeEnd_append]
  rfl

/-- The code in front of the epilogue, and the epilogue. -/
theorem split_epilogue :
    c.all = (c.entry ++ (c.inner ++ (c.catch_ ++ c.finally_))) ++ c.epilogue ∧
      codeEnd 0 (c.entry ++ (c.inner ++ (c.catch_ ++ c.finally_))) = c.epilogueStart := by
  refine ⟨by simp [all], ?_⟩
  rw [codeEnd_append, codeEnd_append, codeEnd_append]
  rfl

/-- Each part is contiguous from where it starts. -/
theorem contiguous_parts (h : Contiguous 0 c.all) :
    Contiguous 0 c.entry ∧ Contiguous c.innerStart c.inner ∧ Contiguous c.innerEnd c.catch_ ∧
      Contiguous c.finallyStart c.finally_ ∧ Contiguous c.epilogueStart c.epilogue := by
  unfold all at h
  simp only [contiguous_append] at h
  exact h

end CodeParts

/-- Code starts with its first instruction. -/
theorem offset_of_head? {start : Nat} {code : List (Instruction Offset)}
    (h : Contiguous start code) {i : Instruction Offset} (hi : code.head? = some i) :
    i.offset = .ofNat start := by
  obtain ⟨rest, rfl⟩ := List.head?_eq_some_iff.mp hi
  rw [← h.1, UInt32.ofNat_toNat]

namespace Relocated

variable {body : MethodBody} {code : List (Instruction Offset)} {size : Offset}
  {method enter : Token} {answerSlot : UInt16} {plan : Option ExitPlan} {r : ProbedMethod}
  {c : CodeParts}

/-! ### Parts that hold something -/

theorem entry_ne_nil (h : Relocated body code size method enter answerSlot plan r c) :
    c.entry ≠ [] := by
  intro hnil
  have hacts := h.entry
  rw [hnil] at hacts
  cases hacts

/-- Where exceptions are observed there is a handler for them. -/
theorem catch_ne_nil {p : ExitPlan}
    (h : Relocated body code size method enter answerSlot (some p) r c)
    (hobserved : p.exceptionType.isSome) : c.catch_ ≠ [] := by
  intro hnil
  have hacts := h.catch_
  rw [hnil] at hacts
  simp [ExitPlan.catchActs, hobserved] at hacts

theorem finally_ne_nil {p : ExitPlan}
    (h : Relocated body code size method enter answerSlot (some p) r c) : c.finally_ ≠ [] := by
  intro hnil
  have hacts := h.finally_
  rw [hnil] at hacts
  simp [ExitPlan.finallyActs] at hacts

/-- No image is empty. -/
theorem image_ne_nil (h : Relocated body code size method enter answerSlot plan r c) :
    ∀ image ∈ c.images, image ≠ [] := by
  intro image himage
  obtain ⟨k, hk⟩ := List.mem_iff_getElem?.mp himage
  have hlt := (List.getElem?_eq_some_iff.mp hk).1
  rw [h.count] at hlt
  obtain ⟨j, rest, hj, -⟩ := h.image k code[k] (List.getElem?_eq_getElem hlt)
  rw [hj] at hk
  obtain rfl := Option.some.inj hk
  exact List.cons_ne_nil j rest

/-! ### Positions of images -/

/-- An image is contiguous from where it starts, and there are positions up to its end. -/
theorem contiguous_image (h : Relocated body code size method enter answerSlot plan r c) {k : Nat}
    {image : List (Instruction Offset)} (himage : c.images[k]? = some image) :
    Contiguous (c.imageStart k) image ∧ codeEnd (c.imageStart k) image ≤ Offset.last := by
  have hcont := h.contiguous
  have hbounded := h.bounded
  rw [c.all_eq_image himage] at hcont hbounded
  rw [← c.codeEnd_before]
  refine ⟨(contiguous_append.mp (contiguous_append.mp hcont).2).1, ?_⟩
  rw [codeEnd_append, codeEnd_append] at hbounded
  exact Nat.le_trans (start_le_codeEnd _ _) hbounded

/-- Images start in order. -/
theorem imageStart_lt (h : Relocated body code size method enter answerSlot plan r c) {k k' : Nat}
    (hlt : k < k') (hle : k' ≤ c.images.length) : c.imageStart k < c.imageStart k' := by
  induction k' with
  | zero => cases hlt
  | succ n ih =>
    have hget := List.getElem?_eq_getElem hle
    have hstep : c.imageStart n < c.imageStart (n + 1) := by
      rw [c.imageStart_succ hget]
      exact codeEnd_lt (h.image_ne_nil _ (List.getElem_mem hle))
    rcases Nat.lt_or_ge k n with hkn | hkn
    · exact Nat.lt_trans (ih hkn (Nat.le_of_lt hle)) hstep
    · obtain rfl : k = n := Nat.le_antisymm (Nat.le_of_lt_succ hlt) hkn
      exact hstep

theorem imageStart_le (h : Relocated body code size method enter answerSlot plan r c) {k k' : Nat}
    (hle : k ≤ k') (hlength : k' ≤ c.images.length) : c.imageStart k ≤ c.imageStart k' := by
  rcases Nat.lt_or_eq_of_le hle with hlt | rfl
  · exact Nat.le_of_lt (h.imageStart_lt hlt hlength)
  · exact Nat.le_refl _

/-- The position that an instruction has gone to is that of its image. -/
theorem toNat_move (h : Relocated body code size method enter answerSlot plan r c) {k : Nat}
    {i : Instruction Offset} (hi : code[k]? = some i) :
    (r.move i.offset).toNat = c.imageStart k := by
  obtain ⟨j, rest, hj, hoffset, -⟩ := h.image k i hi
  obtain ⟨⟨hj', -⟩, -⟩ := h.contiguous_image hj
  rw [← hoffset, hj']

/-- The method begins behind the entry probe. -/
theorem move_start (h : Relocated body code size method enter answerSlot plan r c)
    {i : Instruction Offset} (hi : code[0]? = some i) : r.move i.offset = .ofNat c.innerStart := by
  rw [← c.imageStart_zero, ← h.toNat_move hi, UInt32.ofNat_toNat]

/-- Instructions keep their order. -/
theorem move_lt_move (h : Relocated body code size method enter answerSlot plan r c)
    {k k' : Nat} {i i' : Instruction Offset} (hi : code[k]? = some i) (hi' : code[k']? = some i')
    (hlt : k < k') : r.move i.offset < r.move i'.offset := by
  rw [UInt32.lt_iff_toNat_lt, h.toNat_move hi, h.toNat_move hi']
  refine h.imageStart_lt hlt ?_
  rw [h.count]
  exact Nat.le_of_lt (List.getElem?_eq_some_iff.mp hi').1

/-- Behind the image of an instruction is that of the next one. -/
theorem nextOffset_image (h : Relocated body code size method enter answerSlot plan r c) {k : Nat}
    {i' j : Instruction Offset} (before : List (Instruction Offset))
    (hj : c.images[k]? = some (before ++ [j])) (hi' : code[k + 1]? = some i') :
    j.nextOffset = r.move i'.offset := by
  obtain ⟨hcont, hend⟩ := h.contiguous_image hj
  have hstop := codeEnd_eq_stop hcont List.getLast?_concat
  apply UInt32.toNat_inj.mp
  rw [h.toNat_move hi', c.imageStart_succ hj, hstop, toNat_nextOffset (hstop ▸ hend)]

/-- The entry probe ends where there are positions. -/
theorem codeEnd_entry_le (h : Relocated body code size method enter answerSlot plan r c) :
    codeEnd 0 c.entry ≤ Offset.last := by
  have hle := c.starts_le
  exact Nat.le_trans (show c.innerStart ≤ codeEnd 0 c.all by omega) h.bounded

/-- Control goes from the entry probe to what is behind it. -/
theorem nextOffset_entry (h : Relocated body code size method enter answerSlot plan r c)
    {i : Instruction Offset} (hi : c.entry.getLast? = some i) :
    i.nextOffset = .ofNat c.innerStart := by
  have hstop : c.innerStart = i.stop :=
    codeEnd_eq_stop (c.contiguous_parts h.contiguous).1 hi
  have hend : c.innerStart ≤ Offset.last := h.codeEnd_entry_le
  apply UInt32.toNat_inj.mp
  rw [toNat_nextOffset (hstop ▸ hend), ← hstop]
  exact (UInt32.toNat_ofNat_of_lt' (Nat.lt_succ_of_le hend)).symm

/-! ### The offset map -/

theorem lookup_offsetMap (h : Relocated body code size method enter answerSlot plan r c)
    (offset : Offset) :
    r.offsetMap.lookup offset =
      if ∃ i ∈ code, i.offset = offset then some (r.move offset) else none := by
  conv_lhs => rw [h.offsetMap]
  exact lookup_map_offset r.move offset

/-- Both sides of the offset map go up. -/
theorem sorted_offsetMap (h : Relocated body code size method enter answerSlot plan r c)
    (hcont : Contiguous 0 code) : r.offsetMap.Pairwise fun a b => a.1 < b.1 ∧ a.2 < b.2 := by
  rw [h.offsetMap, List.pairwise_map]
  refine List.pairwise_iff_getElem.mpr fun k k' hk hk' hlt => ⟨?_, ?_⟩
  · have hsorted := List.pairwise_iff_getElem.mp (sorted_offsets hcont) k k' (by simpa using hk)
      (by simpa using hk') hlt
    rwa [List.getElem_map, List.getElem_map] at hsorted
  · exact h.move_lt_move (List.getElem?_eq_getElem hk) (List.getElem?_eq_getElem hk') hlt

/-! ### Ends of ranges -/

/-- Every position in the new code is one there can be. -/
theorem toNat_ofNat (h : Relocated body code size method enter answerSlot plan r c) {n : Nat}
    (hn : n ≤ codeEnd 0 c.all) : (UInt32.ofNat n).toNat = n := by
  refine UInt32.toNat_ofNat_of_lt' (Nat.lt_of_le_of_lt (Nat.le_trans hn h.bounded) ?_)
  decide

/-- Where the code of the method ends now. -/
theorem toNat_behind (h : Relocated body code size method enter answerSlot plan r c) :
    (UInt32.ofNat c.innerEnd).toNat = c.innerEnd := by
  have hle := c.starts_le
  exact h.toNat_ofNat (by omega)

theorem edge_of_mem (h : Relocated body code size method enter answerSlot plan r c)
    (behind : Offset) {i : Instruction Offset} (hi : i ∈ code) :
    r.edge behind i.offset = r.move i.offset := by
  rw [ProbedMethod.edge, h.lookup_offsetMap, if_pos ⟨i, hi, rfl⟩]
  rfl

theorem edge_of_forall_ne (h : Relocated body code size method enter answerSlot plan r c)
    (behind : Offset) {offset : Offset} (hoffset : ∀ i ∈ code, i.offset ≠ offset) :
    r.edge behind offset = behind := by
  have hnone : ¬∃ i ∈ code, i.offset = offset := by
    rintro ⟨i, hi, heq⟩
    exact hoffset i hi heq
  rw [ProbedMethod.edge, h.lookup_offsetMap, if_neg hnone]
  rfl

section Edges

variable (h : Relocated body code size method enter answerSlot plan r c)
  (hcont : Contiguous 0 code) (hsize : size.toNat = codeEnd 0 code)
include h hcont hsize

/-- A boundary of the method is the start of an image or the end of all of them. -/
theorem edge_cases {offset : Offset} (hoffset : AtBoundary code size offset) :
    (∃ k i, code[k]? = some i ∧ i.offset = offset ∧
      (r.edge (.ofNat c.innerEnd) offset).toNat = c.imageStart k) ∨
      offset = size ∧ (r.edge (.ofNat c.innerEnd) offset).toNat = c.imageStart code.length := by
  rcases hoffset with ⟨i, hi, rfl⟩ | rfl
  · obtain ⟨k, hk⟩ := List.mem_iff_getElem?.mp hi
    refine .inl ⟨k, i, hk, rfl, ?_⟩
    rw [h.edge_of_mem _ hi, h.toNat_move hk]
  · refine .inr ⟨rfl, ?_⟩
    rw [h.edge_of_forall_ne, h.toNat_behind, ← h.count, c.imageStart_length]
    rintro i hi rfl
    exact absurd (offset_lt_codeEnd hcont hi) (by omega)

/-- Boundaries keep their order. -/
theorem edge_lt_edge {o o' : Offset} (ho : AtBoundary code size o) (ho' : AtBoundary code size o')
    (hlt : o < o') :
    (r.edge (.ofNat c.innerEnd) o).toNat < (r.edge (.ofNat c.innerEnd) o').toNat := by
  rw [UInt32.lt_iff_toNat_lt] at hlt
  have hcount := h.count
  rcases h.edge_cases hcont hsize ho with ⟨k, i, hi, rfl, he⟩ | ⟨rfl, -⟩
  · have hk := (List.getElem?_eq_some_iff.mp hi).1
    rcases h.edge_cases hcont hsize ho' with ⟨k', i', hi', rfl, he'⟩ | ⟨rfl, he'⟩
    · have hk' := (List.getElem?_eq_some_iff.mp hi').1
      rw [he, he']
      refine h.imageStart_lt ?_ (by omega)
      by_contra hle
      rcases Nat.lt_or_eq_of_le (Nat.le_of_not_lt hle) with hlt' | rfl
      · have hsorted := List.pairwise_iff_getElem.mp (sorted_offsets hcont) k' k
          (by simpa using hk') (by simpa using hk) hlt'
        simp only [List.getElem_map, (List.getElem?_eq_some_iff.mp hi).2,
          (List.getElem?_eq_some_iff.mp hi').2, UInt32.lt_iff_toNat_lt] at hsorted
        omega
      · rw [hi] at hi'
        obtain rfl := Option.some.inj hi'
        exact Nat.lt_irrefl _ hlt
    · rw [he, he']
      exact h.imageStart_lt hk (by omega)
  · rcases ho' with ⟨i, hi, rfl⟩ | rfl
    · exact absurd (offset_lt_codeEnd hcont hi) (by omega)
    · exact absurd hlt (Nat.lt_irrefl _)

/-- Everything of the method lies between the entry probe and the tail. -/
theorem edge_between {o : Offset} (ho : AtBoundary code size o) :
    c.innerStart ≤ (r.edge (.ofNat c.innerEnd) o).toNat ∧
      (r.edge (.ofNat c.innerEnd) o).toNat ≤ c.innerEnd := by
  have hcount := h.count
  have hmono : ∀ k ≤ code.length, c.innerStart ≤ c.imageStart k ∧ c.imageStart k ≤ c.innerEnd := by
    intro k hk
    rw [← c.imageStart_zero, ← c.imageStart_length, hcount]
    exact ⟨h.imageStart_le (Nat.zero_le k) (by omega), h.imageStart_le hk (by omega)⟩
  rcases h.edge_cases hcont hsize ho with ⟨k, i, hi, -, he⟩ | ⟨-, he⟩
  · rw [he]
    exact hmono k (Nat.le_of_lt (List.getElem?_eq_some_iff.mp hi).1)
  · rw [he]
    exact hmono _ (Nat.le_refl _)

/-- Where there was a boundary there is one now. -/
theorem atBoundary_edge {o : Offset} (ho : AtBoundary code size o) :
    AtBoundary c.all (.ofNat (codeEnd 0 c.all)) (r.edge (.ofNat c.innerEnd) o) := by
  have hcont' := h.contiguous
  have hk : ∃ k ≤ c.images.length, (r.edge (.ofNat c.innerEnd) o).toNat = c.imageStart k := by
    rcases h.edge_cases hcont hsize ho with ⟨k, i, hi, -, he⟩ | ⟨-, he⟩
    · exact ⟨k, by rw [h.count]; exact Nat.le_of_lt (List.getElem?_eq_some_iff.mp hi).1, he⟩
    · exact ⟨code.length, Nat.le_of_eq h.count.symm, he⟩
  obtain ⟨k, hk, he⟩ := hk
  rw [c.all_eq_split k] at hcont'
  have hboundary := atBoundary_codeEnd hcont'
  rw [← c.all_eq_split, c.codeEnd_before, ← he] at hboundary
  rwa [UInt32.ofNat_toNat] at hboundary

end Edges

end Relocated

end CilProbe
