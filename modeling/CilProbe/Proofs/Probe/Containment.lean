/-
CilProbe/Proofs/Probe/Containment.lean

What lies in which range, before and after.  Ranges of the method start and end with
images, so everything in the image of an instruction lies in the moved range of a
clause exactly if the instruction lay in the range (`tryContains_moved`,
`handlerContains_moved`).  Nothing of the probes lies in a moved range
(`tryContains_moved_outside`, `handlerContains_moved_outside`).
-/
import CilProbe.Proofs.Probe.Structure

namespace CilProbe

open Check

/-- Without a filter, a handler is its own range. -/
theorem Clause.handlerContains_eq {cl : Clause} (hfilter : cl.isFilter = false) {o : Offset} :
    cl.handlerContains o = true ↔ cl.handlerOffset ≤ o ∧ o < cl.handlerEnd := by
  rw [handlerContains_iff (filterFirst_of_isFilter_eq_false hfilter), handlerStart_eq hfilter]

theorem Clause.isFilter_moved (edge : Offset → Offset) (cl : Clause) :
    (cl.moved edge).isFilter = cl.isFilter := rfl

namespace Relocated

variable {body : MethodBody} {code : List (Instruction Offset)} {size : Offset}
  {method enter : Token} {answerSlot : UInt16} {plan : Option ExitPlan} {r : ProbedMethod}
  {c : CodeParts} (h : Relocated body code size method enter answerSlot plan r c)
include h

/-! ### Positions in an image -/

/-- A position lies in the image of the instruction with the given number. -/
def InImage (c : CodeParts) (k : Nat) (o : Offset) : Prop :=
  c.imageStart k ≤ o.toNat ∧ o.toNat < c.imageStart (k + 1)

theorem inImage_of_mem {k : Nat} {image : List (Instruction Offset)}
    (himage : c.images[k]? = some image) {j : Instruction Offset} (hj : j ∈ image) :
    InImage c k j.offset := by
  obtain ⟨hcont, -⟩ := h.contiguous_image himage
  refine ⟨start_le_offset hcont hj, ?_⟩
  rw [c.imageStart_succ himage]
  exact offset_lt_codeEnd hcont hj

theorem inImage_move {k : Nat} {i : Instruction Offset} (hi : code[k]? = some i) :
    InImage c k (r.move i.offset) := by
  obtain ⟨j, rest, hj, hoffset, -⟩ := h.image k i hi
  rw [← hoffset]
  exact h.inImage_of_mem hj List.mem_cons_self

/-- Images lie between the entry probe and the tail. -/
theorem between_of_inImage {k : Nat} {i : Instruction Offset} (hi : code[k]? = some i)
    {o : Offset} (ho : InImage c k o) : c.innerStart ≤ o.toNat ∧ o.toNat < c.innerEnd := by
  have hk := (List.getElem?_eq_some_iff.mp hi).1
  have hcount := h.count
  have hlow := h.imageStart_le (Nat.zero_le k) (by omega)
  have hhigh := h.imageStart_le (Nat.succ_le_of_lt hk) (Nat.le_of_eq hcount.symm)
  rw [c.imageStart_zero] at hlow
  rw [← hcount, c.imageStart_length] at hhigh
  exact ⟨Nat.le_trans hlow ho.1, Nat.lt_of_lt_of_le ho.2 hhigh⟩

/-- The entry probe and the tail lie outside the code of the method. -/
theorem outside_of_mem {j : Instruction Offset} (hj : j ∈ c.entry ++ c.tail) :
    j.offset.toNat < c.innerStart ∨ c.innerEnd ≤ j.offset.toNat := by
  have hall := h.contiguous
  rw [CodeParts.all, ← List.append_assoc, contiguous_append, codeEnd_append] at hall
  rcases List.mem_append.mp hj with hj | hj
  · exact .inl (offset_lt_codeEnd (contiguous_append.mp hall.1).1 hj)
  · exact .inr (start_le_offset hall.2 hj)

section Boundaries

variable (hcont : Contiguous 0 code) (hsize : size.toNat = codeEnd 0 code)
include hcont hsize

/-- Where a range starts or ends in front of an image, it did so in front of the
instruction. -/
theorem edge_le_iff {k : Nat} {i : Instruction Offset} (hi : code[k]? = some i) {o b : Offset}
    (ho : InImage c k o) (hb : AtBoundary code size b) :
    r.edge (.ofNat c.innerEnd) b ≤ o ↔ b ≤ i.offset := by
  have hmem := List.mem_of_getElem? hi
  have hiat : AtBoundary code size i.offset := .inl ⟨i, hmem, rfl⟩
  have hcount := h.count
  have hstart : (r.edge (.ofNat c.innerEnd) i.offset).toNat = c.imageStart k := by
    rw [h.edge_of_mem _ hmem, h.toNat_move hi]
  constructor
  · intro hle
    rw [UInt32.le_iff_toNat_le] at hle
    by_contra hnot
    have hlt := h.edge_lt_edge hcont hsize hiat hb (UInt32.not_le.mp hnot)
    rw [hstart] at hlt
    -- the range ends behind this image, so not before the next one
    have hnext : c.imageStart (k + 1) ≤ (r.edge (.ofNat c.innerEnd) b).toNat := by
      have hk := (List.getElem?_eq_some_iff.mp hi).1
      rcases h.edge_cases hcont hsize hb with ⟨k', i', hi', -, heq⟩ | ⟨-, heq⟩
      · have hk' := (List.getElem?_eq_some_iff.mp hi').1
        rw [heq] at hlt ⊢
        refine h.imageStart_le (Nat.lt_of_not_le fun hle' => ?_) (by omega)
        exact absurd hlt (Nat.not_lt.mpr (h.imageStart_le hle' (by omega)))
      · rw [heq]
        exact h.imageStart_le hk (by omega)
    exact absurd ho.2 (Nat.not_lt.mpr (Nat.le_trans hnext hle))
  · intro hle
    have hmono := ((h.edge_increasing hcont hsize).le_iff hb hiat).mpr hle
    rw [UInt32.le_iff_toNat_le, hstart] at hmono
    exact UInt32.le_iff_toNat_le.mpr (Nat.le_trans hmono ho.1)

theorem lt_edge_iff {k : Nat} {i : Instruction Offset} (hi : code[k]? = some i) {o b : Offset}
    (ho : InImage c k o) (hb : AtBoundary code size b) :
    o < r.edge (.ofNat c.innerEnd) b ↔ i.offset < b := by
  rw [← UInt32.not_le, ← UInt32.not_le, not_iff_not]
  exact h.edge_le_iff hcont hsize hi ho hb

omit hcont hsize in
theorem boundaries_of_clause {cl : Clause} (hcl : cl ∈ body.clauses) :
    (AtBoundary code size cl.tryOffset ∧ AtBoundary code size cl.tryEnd) ∧
      AtBoundary code size cl.handlerOffset ∧ AtBoundary code size cl.handlerEnd := by
  have hedges := h.edges cl hcl
  simp only [List.forall_mem_cons] at hedges
  exact ⟨⟨hedges.1, hedges.2.1⟩, hedges.2.2.1, hedges.2.2.2.1⟩

theorem tryEnd_moved {cl : Clause} (hcl : cl ∈ body.clauses) :
    (cl.moved (r.edge (.ofNat c.innerEnd))).tryEnd = r.edge (.ofNat c.innerEnd) cl.tryEnd := by
  obtain ⟨⟨hstart, hend⟩, -⟩ := h.boundaries_of_clause hcl
  exact Offset.after_distance
    (((h.edge_increasing hcont hsize).le_iff hstart hend).mpr (Offset.le_after _ _))

theorem handlerEnd_moved {cl : Clause} (hcl : cl ∈ body.clauses) :
    (cl.moved (r.edge (.ofNat c.innerEnd))).handlerEnd =
      r.edge (.ofNat c.innerEnd) cl.handlerEnd := by
  obtain ⟨-, hstart, hend⟩ := h.boundaries_of_clause hcl
  exact Offset.after_distance
    (((h.edge_increasing hcont hsize).le_iff hstart hend).mpr (Offset.le_after _ _))

/-- What was protected is protected. -/
theorem tryContains_moved {cl : Clause} (hcl : cl ∈ body.clauses) {k : Nat}
    {i : Instruction Offset} (hi : code[k]? = some i) {o : Offset} (ho : InImage c k o) :
    (cl.moved (r.edge (.ofNat c.innerEnd))).tryContains o = cl.tryContains i.offset := by
  obtain ⟨⟨hstart, hend⟩, -⟩ := h.boundaries_of_clause hcl
  rw [Bool.eq_iff_iff, Clause.tryContains_iff, Clause.tryContains_iff,
    h.tryEnd_moved hcont hsize hcl]
  exact and_congr (h.edge_le_iff hcont hsize hi ho hstart) (h.lt_edge_iff hcont hsize hi ho hend)

/-- What was part of a handler is part of it. -/
theorem handlerContains_moved {cl : Clause} (hcl : cl ∈ body.clauses)
    (hfilter : cl.isFilter = false) {k : Nat} {i : Instruction Offset} (hi : code[k]? = some i)
    {o : Offset} (ho : InImage c k o) :
    (cl.moved (r.edge (.ofNat c.innerEnd))).handlerContains o = cl.handlerContains i.offset := by
  obtain ⟨-, hstart, hend⟩ := h.boundaries_of_clause hcl
  rw [Bool.eq_iff_iff, Clause.handlerContains_eq hfilter,
    Clause.handlerContains_eq ((cl.isFilter_moved _).trans hfilter),
    h.handlerEnd_moved hcont hsize hcl]
  exact and_congr (h.edge_le_iff hcont hsize hi ho hstart) (h.lt_edge_iff hcont hsize hi ho hend)

/-! ### Positions of the probes -/

/-- Ranges of the method hold nothing in front of its code and nothing behind it. -/
theorem not_between_edges {a b o : Offset} (ha : AtBoundary code size a)
    (hb : AtBoundary code size b) (ho : o.toNat < c.innerStart ∨ c.innerEnd ≤ o.toNat) :
    ¬(r.edge (.ofNat c.innerEnd) a ≤ o ∧ o < r.edge (.ofNat c.innerEnd) b) := by
  rintro ⟨hlow, hhigh⟩
  have hstart := (h.edge_between hcont hsize ha).1
  have hend := (h.edge_between hcont hsize hb).2
  rw [UInt32.le_iff_toNat_le] at hlow
  rw [UInt32.lt_iff_toNat_lt] at hhigh
  omega

theorem tryContains_moved_outside {cl : Clause} (hcl : cl ∈ body.clauses) {o : Offset}
    (ho : o.toNat < c.innerStart ∨ c.innerEnd ≤ o.toNat) :
    (cl.moved (r.edge (.ofNat c.innerEnd))).tryContains o = false := by
  obtain ⟨⟨hstart, hend⟩, -⟩ := h.boundaries_of_clause hcl
  rw [← Bool.not_eq_true, Clause.tryContains_iff, h.tryEnd_moved hcont hsize hcl]
  exact h.not_between_edges hcont hsize hstart hend ho

theorem handlerContains_moved_outside {cl : Clause} (hcl : cl ∈ body.clauses)
    (hfilter : cl.isFilter = false) {o : Offset}
    (ho : o.toNat < c.innerStart ∨ c.innerEnd ≤ o.toNat) :
    (cl.moved (r.edge (.ofNat c.innerEnd))).handlerContains o = false := by
  obtain ⟨-, hstart, hend⟩ := h.boundaries_of_clause hcl
  rw [← Bool.not_eq_true, Clause.handlerContains_eq ((cl.isFilter_moved _).trans hfilter),
    h.handlerEnd_moved hcont hsize hcl]
  exact h.not_between_edges hcont hsize hstart hend ho

end Boundaries

end Relocated

end CilProbe
