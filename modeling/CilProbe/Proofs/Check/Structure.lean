/-
CilProbe/Proofs/Check/Structure.lean

What the check of the shape of code accepts (`WellStructured`), and that it accepts
exactly that (`checkStructure_eq_ok_iff`).  Moving ranges keeps them together as long
as their ends keep their order (`Block.Compatible.moved`).
-/
import CilProbe.Check.Structure
import CilProbe.Proofs.Cil.Positions
import CilProbe.Proofs.Outcome

namespace CilProbe

/-! ### Positions after a length -/

theorem Offset.lt_after {a : Offset} {length : UInt32} (hlength : length ≠ 0)
    (h : a.toNat < last) : a < a.after length.toNat := by
  have hpos : 0 < length.toNat := Nat.pos_of_ne_zero fun hzero =>
    hlength (UInt32.toNat_inj.mp hzero)
  rw [UInt32.lt_iff_toNat_lt, toNat_after]
  omega

theorem Offset.le_after (o : Offset) (length : Nat) : o ≤ o.after length := by
  have hlt := o.toNat_lt
  rw [UInt32.le_iff_toNat_le, toNat_after, last]
  omega

/-! ### What clauses contain -/

theorem Clause.tryContains_iff {cl : Clause} {o : Offset} :
    cl.tryContains o = true ↔ cl.tryOffset ≤ o ∧ o < cl.tryEnd := by
  simp [tryContains]

theorem Clause.handlerStart_eq {cl : Clause} (h : cl.isFilter = false) :
    cl.handlerStart = cl.handlerOffset := by
  rw [handlerStart, filterOffset?, h]
  rfl

theorem Clause.handlerStart_of_mem {cl : Clause} {f : Offset} (h : f ∈ cl.filterOffset?) :
    cl.handlerStart = f := by
  rw [handlerStart, h]
  rfl

/-- A filter, if there is one, does not start behind the handler. -/
def Clause.FilterFirst (cl : Clause) : Prop := ∀ f ∈ cl.filterOffset?, f ≤ cl.handlerOffset

instance (cl : Clause) : Decidable cl.FilterFirst :=
  decidable_of_iff (cl.filterOffset?.all (· ≤ cl.handlerOffset)) (by
    unfold Clause.FilterFirst
    rcases cl.filterOffset? with - | f
    · simp
    · simp)

theorem Clause.filterFirst_of_isFilter_eq_false {cl : Clause} (h : cl.isFilter = false) :
    cl.FilterFirst := by
  simp [FilterFirst, filterOffset?, h]

theorem Clause.handlerStart_le {cl : Clause} (h : cl.FilterFirst) :
    cl.handlerStart ≤ cl.handlerOffset := by
  unfold handlerStart
  rcases hfilter : cl.filterOffset? with - | f
  · exact UInt32.le_refl _
  · exact h f hfilter

/-- With its filter in front a handler is one range. -/
theorem Clause.handlerContains_iff {cl : Clause} (h : cl.FilterFirst) {o : Offset} :
    cl.handlerContains o = true ↔ cl.handlerStart ≤ o ∧ o < cl.handlerEnd := by
  have hend : cl.handlerOffset ≤ cl.handlerEnd := Offset.le_after _ _
  unfold handlerContains handlerStart
  rcases hfilter : cl.filterOffset? with - | f
  · simp
  · have hle := h f hfilter
    simp only [Option.getD_some, Bool.or_eq_true, Bool.and_eq_true, decide_eq_true_eq]
    constructor
    · rintro (⟨hlow, hhigh⟩ | ⟨hlow, hhigh⟩)
      · exact ⟨UInt32.le_trans hle hlow, hhigh⟩
      · exact ⟨hlow, UInt32.lt_of_lt_of_le hhigh hend⟩
    · rintro ⟨hlow, hhigh⟩
      by_cases hhandler : cl.handlerOffset ≤ o
      · exact .inl ⟨hhandler, hhigh⟩
      · exact .inr ⟨hlow, UInt32.not_le.mp hhandler⟩

/-! ### Boundaries -/

/-- A position between instructions, or the end of the code. -/
def AtBoundary (code : List (Instruction Offset)) (size offset : Offset) : Prop :=
  (∃ i ∈ code, i.offset = offset) ∨ offset = size

/-- What starts before a boundary starts at an instruction. -/
theorem AtBoundary.exists_instruction {code : List (Instruction Offset)} {size o o' : Offset}
    (ho : AtBoundary code size o) (hcont : Contiguous 0 code) (hsize : size.toNat = codeEnd 0 code)
    (ho' : AtBoundary code size o') (hlt : o < o') : ∃ i ∈ code, i.offset = o := by
  rcases ho with hi | rfl
  · exact hi
  · -- no boundary lies behind the end
    rw [UInt32.lt_iff_toNat_lt] at hlt
    rcases ho' with ⟨i, hi, rfl⟩ | rfl
    · have hend := offset_lt_codeEnd hcont hi
      omega
    · exact absurd hlt (Nat.lt_irrefl _)

/-- The ranges of a well placed clause hold something. -/
structure Clause.Proper (code : List (Instruction Offset)) (size : Offset) (cl : Clause) :
    Prop where
  tryStart : AtBoundary code size cl.tryOffset
  tryEnd : AtBoundary code size cl.tryEnd
  handlerStart : AtBoundary code size cl.handlerOffset
  handlerEnd : AtBoundary code size cl.handlerEnd
  try_lt : cl.tryOffset < cl.tryEnd
  handler_lt : cl.handlerOffset < cl.handlerEnd

/-- Positions of a kind keep their order. -/
def Increasing (P : Offset → Prop) (f : Offset → Offset) : Prop :=
  ∀ ⦃o o'⦄, P o → P o' → o < o' → f o < f o'

namespace Increasing

variable {P : Offset → Prop} {f : Offset → Offset} (hf : Increasing P f) {o o' : Offset}
include hf

theorem lt_iff (ho : P o) (ho' : P o') : f o < f o' ↔ o < o' := by
  refine ⟨fun hlt => ?_, hf ho ho'⟩
  rcases Std.lt_trichotomy o o' with h | rfl | h
  · exact h
  · exact absurd hlt (UInt32.lt_irrefl _)
  · exact absurd hlt (UInt32.lt_asymm (hf ho' ho h))

theorem le_iff (ho : P o) (ho' : P o') : f o ≤ f o' ↔ o ≤ o' := by
  rw [← UInt32.not_lt, ← UInt32.not_lt, hf.lt_iff ho' ho]

theorem eq_iff (ho : P o) (ho' : P o') : f o = f o' ↔ o = o' := by
  refine ⟨fun heq => ?_, congrArg f⟩
  exact UInt32.le_antisymm ((hf.le_iff ho ho').mp (heq ▸ UInt32.le_refl _))
    ((hf.le_iff ho' ho).mp (heq ▸ UInt32.le_refl _))

end Increasing

namespace Check

/-! ### Ranges -/

namespace Block

/-- Two ranges, the first of which comes first in the table, go together: they are
apart or one lies in the other, and the outer one does not come first. -/
structure Compatible (first second : Block) : Prop where
  nested : first.overlaps second → first.encloses second ∨ second.encloses first
  ordered : first.clause < second.clause → ¬first.strictlyEncloses second

theorem overlaps_iff {a b : Block} :
    a.overlaps b = true ↔ a.start < b.stop ∧ b.start < a.stop := by
  simp [overlaps]

theorem encloses_iff {a b : Block} :
    a.encloses b = true ↔ a.start ≤ b.start ∧ b.stop ≤ a.stop := by
  simp [encloses]

theorem strictlyEncloses_iff {a b : Block} :
    a.strictlyEncloses b = true ↔
      a.encloses b ∧ ¬(a.start = b.start ∧ a.stop = b.stop) := by
  simp [strictlyEncloses, -not_and, ← not_and_or]

/-- The range with its ends moved. -/
def moved (f : Offset → Offset) (b : Block) : Block := ⟨b.clause, f b.start, f b.stop⟩

/-- Ranges that go together still do when their ends have moved in order. -/
theorem Compatible.moved {P : Offset → Prop} {f : Offset → Offset} (hf : Increasing P f)
    {a b : Block} (h : Compatible a b) (ha : P a.start ∧ P a.stop) (hb : P b.start ∧ P b.stop) :
    Compatible (a.moved f) (b.moved f) := by
  have hencloses : ∀ {a b : Block}, P a.start ∧ P a.stop → P b.start ∧ P b.stop →
      ((a.moved f).encloses (b.moved f) = true ↔ a.encloses b = true) := by
    intro a b ha hb
    rw [encloses_iff, encloses_iff, Block.moved, Block.moved, hf.le_iff ha.1 hb.1,
      hf.le_iff hb.2 ha.2]
  constructor
  · rw [overlaps_iff, Block.moved, Block.moved, hf.lt_iff ha.1 hb.2,
      hf.lt_iff hb.1 ha.2, ← overlaps_iff]
    exact fun hover => (h.nested hover).imp (hencloses ha hb).mpr (hencloses hb ha).mpr
  · intro hlt
    rw [strictlyEncloses_iff, hencloses ha hb, Block.moved, Block.moved,
      hf.eq_iff ha.1 hb.1, hf.eq_iff ha.2 hb.2,
      ← strictlyEncloses_iff]
    exact h.ordered hlt

end Block

theorem require_eq_ok {good : Bool} {offset : Offset} {finding : Finding} :
    require good offset finding = .ok () ↔ good = true := by
  unfold require reject
  split <;> simp [*]

theorem require_eq_error {good : Bool} {offset : Offset} {finding : Finding} {e : Error}
    (h : require good offset finding = .error e) : e = .rejected offset finding := by
  unfold require reject at h
  split at h
  · cases h
  · exact (Except.error.inj h).symm

theorem checkPair_eq_ok {first second : Block} :
    checkPair first second = .ok () ↔ first.Compatible second := by
  unfold checkPair
  rw [seq_eq_ok, require_eq_ok, require_eq_ok]
  constructor
  · rintro ⟨hnested, hordered⟩
    refine ⟨fun hover => ?_, fun hlt => ?_⟩
    · simpa [hover] using hnested
    · simpa [hlt] using hordered
  · intro h
    constructor
    · rcases hover : first.overlaps second with - | -
      · rfl
      · simpa using h.nested hover
    · by_cases hlt : first.clause < second.clause
      · simpa [hlt] using h.ordered hlt
      · simp [hlt]

theorem checkPairs_eq_ok {bs : List Block} :
    checkPairs bs = .ok () ↔ bs.Pairwise Block.Compatible := by
  induction bs with
  | nil => exact iff_of_true rfl .nil
  | cons first rest ih =>
    rw [checkPairs, seq_eq_ok, List.pairwise_cons, ← ih, forM_eq_ok]
    simp only [checkPair_eq_ok]

/-! ### Clauses -/

/-- The ranges of a clause end at boundaries, hold something and are apart. -/
structure WellPlaced (code : List (Instruction Offset)) (size : Offset) (clause : Nat)
    (c : Clause) : Prop where
  edges : ∀ edge ∈ edges c, AtBoundary code size edge
  tryLength : c.tryLength ≠ 0
  handlerLength : c.handlerLength ≠ 0
  apart : ¬(protectedBlock clause c).overlaps (handlerBlock clause c)

theorem WellPlaced.proper {code : List (Instruction Offset)} {size : Offset} {clause : Nat}
    {c : Clause} (h : WellPlaced code size clause c) (htry : c.tryOffset.toNat < Offset.last)
    (hhandler : c.handlerOffset.toNat < Offset.last) : c.Proper code size := by
  have hedges := h.edges
  simp only [Check.edges, List.forall_mem_cons] at hedges
  obtain ⟨htry', htryEnd, -, hhandler', hhandlerEnd, -⟩ := hedges
  exact ⟨htry', htryEnd, hhandler', hhandlerEnd, Offset.lt_after h.tryLength htry,
    Offset.lt_after h.handlerLength hhandler⟩

/-- The ranges of a clause with the given number. -/
def blocksOf (c : Clause × Nat) : List Block := [protectedBlock c.2 c.1, handlerBlock c.2 c.1]

theorem blocks_eq (clauses : List Clause) : blocks clauses = clauses.zipIdx.flatMap blocksOf := rfl

/-! ### The whole check -/

/-- Code and clauses with the shape that they must have. -/
structure WellStructured (code : List (Instruction Offset)) (size : Offset)
    (clauses : List Clause) : Prop where
  last : ∃ last, code.getLast? = some last ∧ last.opcode.info.flow.fallsThrough = false
  targets : ∀ i ∈ code, ∀ t ∈ i.operand.targets, ∃ j ∈ code, j.offset = t
  placed : ∀ c ∈ clauses.zipIdx, WellPlaced code size c.2 c.1
  compatible : (blocks clauses).Pairwise Block.Compatible

section Whole

variable {code : List (Instruction Offset)} {size : Offset} {clauses : List Clause}

theorem WellStructured.exists_placed (h : WellStructured code size clauses) {c : Clause}
    (hc : c ∈ clauses) : ∃ n, WellPlaced code size n c := by
  obtain ⟨n, hn⟩ := List.mem_iff_getElem?.mp hc
  exact ⟨n, h.placed (c, n) (List.mem_zipIdx_iff_getElem?.mpr hn)⟩

theorem checkEnd_eq_ok :
    checkEnd code = .ok () ↔
      ∃ last, code.getLast? = some last ∧ last.opcode.info.flow.fallsThrough = false := by
  unfold checkEnd
  rcases code.getLast? with - | last
  · simp [reject]
  · simp [require_eq_ok]

variable (hc : Contiguous 0 code) (hsize : size.toNat = codeEnd 0 code)
include hc hsize

theorem checkTargets_eq_ok {i : Instruction Offset} :
    checkTargets (.of code size) size i = .ok () ↔
      ∀ t ∈ i.operand.targets, ∃ j ∈ code, j.offset = t := by
  unfold checkTargets
  rw [forM_eq_ok]
  refine forall₂_congr fun t _ => ?_
  rw [require_eq_ok, Bool.and_eq_true, decide_eq_true_eq, Boundaries.contains_of_iff hc hsize]
  constructor
  · rintro ⟨hlt, h | rfl⟩
    · exact h
    · exact absurd hlt (UInt32.lt_irrefl _)
  · rintro ⟨j, hj, rfl⟩
    refine ⟨?_, .inl ⟨j, hj, rfl⟩⟩
    rw [UInt32.lt_iff_toNat_lt, hsize]
    exact offset_lt_codeEnd hc hj

theorem checkClause_eq_ok {clause : Nat} {c : Clause} :
    checkClause (.of code size) clause c = .ok () ↔ WellPlaced code size clause c := by
  unfold checkClause
  simp only [seq_eq_ok, forM_eq_ok, require_eq_ok, Boundaries.contains_of_iff hc hsize,
    Bool.and_eq_true, bne_iff_ne, Bool.not_eq_true']
  constructor
  · rintro ⟨hedges, ⟨htry, hhandler⟩, hapart⟩
    exact ⟨hedges, htry, hhandler, by simp [hapart]⟩
  · rintro ⟨hedges, htry, hhandler, hapart⟩
    exact ⟨hedges, ⟨htry, hhandler⟩, by simpa using hapart⟩

/-- The check accepts exactly what has the shape. -/
theorem checkStructure_eq_ok_iff :
    checkStructure code size clauses = .ok () ↔ WellStructured code size clauses := by
  unfold checkStructure
  simp only [seq_eq_ok, forM_eq_ok, checkEnd_eq_ok, checkTargets_eq_ok hc hsize,
    checkClause_eq_ok hc hsize, checkPairs_eq_ok]
  constructor
  · rintro ⟨hlast, htargets, hplaced, hpairs⟩
    exact ⟨hlast, htargets, hplaced, hpairs⟩
  · rintro ⟨hlast, htargets, hplaced, hpairs⟩
    exact ⟨hlast, htargets, hplaced, hpairs⟩

/-- Clauses of the right shape hold something where all code ends before the last
position. -/
theorem WellStructured.proper (h : WellStructured code size clauses)
    (hshort : codeEnd 0 code < Offset.last) : ∀ cl ∈ clauses, cl.Proper code size := by
  intro cl hcl
  obtain ⟨n, hplaced⟩ := h.exists_placed hcl
  have hlt : ∀ {o}, AtBoundary code size o → o.toNat < Offset.last := by
    rintro o (⟨i, hi, rfl⟩ | rfl)
    · exact Nat.lt_trans (offset_lt_codeEnd hc hi) hshort
    · omega
  have hedges := hplaced.edges
  simp only [edges, List.forall_mem_cons] at hedges
  exact hplaced.proper (hlt hedges.1) (hlt hedges.2.2.2.1)

end Whole

end Check

end CilProbe
