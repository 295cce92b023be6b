/-
CilProbe/Proofs/Check/Nesting.lean

What an accepted clause table means to whoever looks for a handler.  The check compares
the ends of ranges, two ranges at a time.  Seen as sets of positions the ranges nest: any
two are apart, or that of the earlier clause lies in the other (`Clause.NestsIn`), so
the clauses that protect a position stand in the table from the innermost to the
outermost (`ranges_nested`).

A handler with its filter is one such range as long as the filter does not start behind
the handler (`filters_nested`).  The check does not ask for that: for a filter behind its
handler it looks at a range that is empty, or not the one that the clause covers, and
accepts tables that do not nest or that lead control out of the code
(`filterBehind_accepted`).
-/
import CilProbe.Proofs.Check.Stack

namespace CilProbe

/-! ### Ranges as sets of positions -/

/-- Two sets of positions have none in common. -/
def Apart (r r' : Offset → Bool) : Prop := ∀ o, r o = true → r' o = false

/-- One set of positions lies in another. -/
def Inside (r r' : Offset → Bool) : Prop := ∀ o, r o = true → r' o = true

/-- A set of positions is that of a range, which starts at an instruction and stops at a
boundary behind it. -/
structure Delimits (code : List (Instruction Offset)) (size start stop : Offset)
    (r : Offset → Bool) : Prop where
  instruction : ∃ i ∈ code, i.offset = start
  boundary : AtBoundary code size stop
  nonempty : start < stop
  mem : ∀ o, r o = true ↔ start ≤ o ∧ o < stop

/-- What a clause protects, and what handles it. -/
def Clause.ranges (c : Clause) : List (Offset → Bool) := [c.tryContains, c.handlerContains]

/-- Any range of one clause is apart from any range of the other, or lies in it. -/
def Clause.NestsIn (inner outer : Clause) : Prop :=
  ∀ r ∈ inner.ranges, ∀ r' ∈ outer.ranges, Apart r r' ∨ Inside r r'

theorem not_apart {r r' : Offset → Bool} {o : Offset} (h : r o = true) (h' : r' o = true) :
    ¬Apart r r' := by
  intro hapart
  rw [hapart o h] at h'
  cases h'

/-- Clauses that nest protect a position from the innermost to the outermost. -/
theorem pairwise_covering {clauses : List Clause} (h : clauses.Pairwise Clause.NestsIn)
    (o : Offset) :
    (clauses.filter (·.tryContains o)).Pairwise fun inner outer =>
      Inside inner.tryContains outer.tryContains := by
  refine (h.filter _).imp_of_mem fun {inner outer} hinner houter hnests => ?_
  have hin := (List.mem_filter.mp hinner).2
  have hout := (List.mem_filter.mp houter).2
  exact (hnests _ (by simp [Clause.ranges]) _ (by simp [Clause.ranges])).resolve_left
    (not_apart hin hout)

namespace Check

/-! ### From ends to positions -/

namespace Block

/-- A range of an earlier clause that shares a position with one of a later clause lies
in it. -/
theorem Compatible.encloses {a b : Block} (h : a.Compatible b) (hlt : a.clause < b.clause)
    (hover : a.overlaps b = true) : b.encloses a = true := by
  rcases h.nested hover with ha | hb
  · -- the earlier one may only be as large as the later one
    by_contra hnot
    refine h.ordered hlt (strictlyEncloses_iff.mpr ⟨ha, ?_⟩)
    rintro ⟨hstart, hstop⟩
    exact hnot (encloses_iff.mpr ⟨UInt32.le_of_eq hstart.symm, UInt32.le_of_eq hstop⟩)
  · exact hb

theorem apart_of_not_overlaps {a b : Block} {r r' : Offset → Bool} (h : ¬a.overlaps b = true)
    (hr : ∀ o, r o = true ↔ a.start ≤ o ∧ o < a.stop)
    (hr' : ∀ o, r' o = true ↔ b.start ≤ o ∧ o < b.stop) : Apart r r' := by
  intro o ho
  obtain ⟨hlow, hhigh⟩ := (hr o).mp ho
  rw [← Bool.not_eq_true, hr']
  rintro ⟨hlow', hhigh'⟩
  exact h (overlaps_iff.mpr
    ⟨UInt32.lt_of_le_of_lt hlow hhigh', UInt32.lt_of_le_of_lt hlow' hhigh⟩)

theorem Compatible.apart_or_inside {a b : Block} {r r' : Offset → Bool} (h : a.Compatible b)
    (hlt : a.clause < b.clause) (hr : ∀ o, r o = true ↔ a.start ≤ o ∧ o < a.stop)
    (hr' : ∀ o, r' o = true ↔ b.start ≤ o ∧ o < b.stop) : Apart r r' ∨ Inside r r' := by
  by_cases hover : a.overlaps b = true
  · obtain ⟨hstart, hstop⟩ := encloses_iff.mp (h.encloses hlt hover)
    refine .inr fun o ho => ?_
    obtain ⟨hlow, hhigh⟩ := (hr o).mp ho
    exact (hr' o).mpr ⟨UInt32.le_trans hstart hlow, UInt32.lt_of_lt_of_le hhigh hstop⟩
  · exact .inl (apart_of_not_overlaps hover hr hr')

end Block

/-- The ranges of a clause are those that the check compares. -/
theorem exists_block {c : Clause} (h : c.FilterFirst) (n : Nat) :
    ∀ r ∈ c.ranges, ∃ b ∈ blocksOf (c, n), b.clause = n ∧
      ∀ o, r o = true ↔ b.start ≤ o ∧ o < b.stop := by
  intro r hr
  simp only [Clause.ranges, List.mem_cons, List.not_mem_nil, or_false] at hr
  rcases hr with rfl | rfl
  · exact ⟨protectedBlock n c, by simp [blocksOf], rfl, fun o => Clause.tryContains_iff⟩
  · exact ⟨handlerBlock n c, by simp [blocksOf], rfl, fun o => Clause.handlerContains_iff h⟩

theorem mem_successors {i : Instruction Offset} {t : Offset} (h : t ∈ successors i) :
    t ∈ i.operand.targets ∨ t = i.nextOffset ∧ i.opcode.info.flow.fallsThrough = true := by
  unfold successors at h
  rcases hflow : i.opcode.info.flow
  all_goals
    rw [hflow] at h
    simp_all [Flow.fallsThrough, or_comm]

section Shape

variable {code : List (Instruction Offset)} {size : Offset} {clauses : List Clause}
  (h : WellStructured code size clauses)
include h

theorem WellStructured.compatible_of_lt {m n : Nat} {c c' : Clause} (hc : clauses[m]? = some c)
    (hc' : clauses[n]? = some c') (hlt : m < n) :
    ∀ b ∈ blocksOf (c, m), ∀ b' ∈ blocksOf (c', n), b.Compatible b' := by
  have hpairs := (List.pairwise_flatMap.mp (blocks_eq clauses ▸ h.compatible)).2
  obtain ⟨hm, rfl⟩ := List.getElem?_eq_some_iff.mp hc
  obtain ⟨hn, rfl⟩ := List.getElem?_eq_some_iff.mp hc'
  have := List.pairwise_iff_getElem.mp hpairs m n (by simpa using hm) (by simpa using hn) hlt
  simpa using this

/-- The clauses nest, the inner ones first. -/
theorem WellStructured.nests (hfirst : ∀ c ∈ clauses, c.FilterFirst) :
    clauses.Pairwise Clause.NestsIn := by
  rw [List.pairwise_iff_getElem]
  intro m n hm hn hlt r hr r' hr'
  obtain ⟨b, hb, hclause, hmem⟩ := exists_block (hfirst _ (List.getElem_mem hm)) m r hr
  obtain ⟨b', hb', hclause', hmem'⟩ := exists_block (hfirst _ (List.getElem_mem hn)) n r' hr'
  have hcompatible := h.compatible_of_lt (List.getElem?_eq_getElem hm)
    (List.getElem?_eq_getElem hn) hlt b hb b' hb'
  exact hcompatible.apart_or_inside (by omega) hmem hmem'

/-- What a clause protects is apart from what handles it. -/
theorem WellStructured.apart {c : Clause} (hc : c ∈ clauses) (hfirst : c.FilterFirst) :
    Apart c.tryContains c.handlerContains := by
  obtain ⟨n, hplaced⟩ := h.exists_placed hc
  exact Block.apart_of_not_overlaps hplaced.apart (fun _ => Clause.tryContains_iff)
    (fun _ => Clause.handlerContains_iff hfirst)

variable (hcont : Contiguous 0 code)
include hcont

/-- Wherever control goes from an instruction there is one. -/
theorem WellStructured.exists_successor (hshort : codeEnd 0 code ≤ Offset.last)
    {i : Instruction Offset} (hi : i ∈ code) {t : Offset} (ht : t ∈ successors i) :
    ∃ j ∈ code, j.offset = t := by
  rcases mem_successors ht with htarget | ⟨rfl, hfalls⟩
  · exact h.targets i hi t htarget
  · obtain ⟨k, hk⟩ := List.mem_iff_getElem?.mp hi
    have hlt := (List.getElem?_eq_some_iff.mp hk).1
    rcases Nat.lt_or_ge (k + 1) code.length with hnext | hlast
    · have hj := List.getElem?_eq_getElem hnext
      exact ⟨_, List.mem_of_getElem? hj, (nextOffset_eq_offset hcont hshort hk hj).symm⟩
    · -- the last instruction does not let control run on
      obtain ⟨last, hgetLast, hstops⟩ := h.last
      rw [List.getLast?_eq_getElem?, show code.length - 1 = k by omega] at hgetLast
      obtain rfl := Option.some.inj (hk.symm.trans hgetLast)
      rw [hfalls] at hstops
      cases hstops

variable (hsize : size.toNat = codeEnd 0 code) (hshort : codeEnd 0 code < Offset.last)
include hsize hshort

/-- The ranges of a clause are ranges of the code. -/
theorem WellStructured.delimits {c : Clause} (hc : c ∈ clauses) (hfirst : c.FilterFirst) :
    Delimits code size c.tryOffset c.tryEnd c.tryContains ∧
      Delimits code size c.handlerStart c.handlerEnd c.handlerContains := by
  obtain ⟨n, hplaced⟩ := h.exists_placed hc
  have hproper := h.proper hcont hsize hshort c hc
  have hstart : AtBoundary code size c.handlerStart := hplaced.edges _ (by simp [edges])
  have hlt : c.handlerStart < c.handlerEnd :=
    UInt32.lt_of_le_of_lt (Clause.handlerStart_le hfirst) hproper.handler_lt
  constructor
  · exact ⟨hproper.tryStart.exists_instruction hcont hsize hproper.tryEnd hproper.try_lt,
      hproper.tryEnd, hproper.try_lt, fun _ => Clause.tryContains_iff⟩
  · exact ⟨hstart.exists_instruction hcont hsize hproper.handlerEnd hlt,
      hproper.handlerEnd, hlt, fun _ => Clause.handlerContains_iff hfirst⟩

theorem WellStructured.exists_handler {c : Clause} (hc : c ∈ clauses) :
    ∃ i ∈ code, i.offset = c.handlerOffset := by
  have hproper := h.proper hcont hsize hshort c hc
  exact hproper.handlerStart.exists_instruction hcont hsize hproper.handlerEnd hproper.handler_lt

theorem WellStructured.exists_filter {c : Clause} (hc : c ∈ clauses) (hfirst : c.FilterFirst)
    {f : Offset} (hf : f ∈ c.filterOffset?) : ∃ i ∈ code, i.offset = f := by
  rw [← Clause.handlerStart_of_mem hf]
  exact (h.delimits hcont hsize hshort hc hfirst).2.instruction

end Shape

/-! ### Positions that the walk misses -/

/-- What an instruction does to the stack does not depend on where it leads. -/
theorem stackEffect_ne_noInstruction {callSites : CallSites} {returnsValue : Bool}
    {i : Instruction Offset} {source t : Offset} :
    stackEffect callSites returnsValue i ≠ .error (.rejected source (.noInstruction t)) := by
  intro h
  have hsignature :
      calledSignature callSites i ≠ .error (.rejected source (.noInstruction t)) := by
    unfold calledSignature reject
    intro h
    split at h
    · cases h
    · split at h
      · cases h
      · cases h
  unfold stackEffect at h
  split at h
  · cases h
  · split at h
    · cases h
    · exact hsignature (bind_pure_eq_error.mp h)

namespace Walk

variable {g : Ground} (hindexed : Indexed g) {w : Walk} {source t : Offset}
include hindexed

theorem enter_eq_noInstruction {from_ offset : Offset} {depth : UInt16}
    (h : enter g from_ w offset depth = .error (.rejected source (.noInstruction t))) :
    t = offset ∧ ¬g.Has t := by
  unfold enter at h
  rcases hindex : g.index[offset]? with - | n
  · rw [hindex] at h
    cases h
    refine ⟨rfl, ?_⟩
    rintro ⟨i, hi, rfl⟩
    obtain ⟨n, hn⟩ := Array.mem_iff_getElem?.mp hi
    rw [(hindexed i.offset n).mpr ⟨i, hn, rfl⟩] at hindex
    cases hindex
  · rw [hindex] at h
    simp only at h
    split at h
    · split at h
      · cases h
      · cases h
    · cases h

theorem pass_eq_noInstruction {i : Instruction Offset} {depth : UInt16}
    (h : pass g w i depth = .error (.rejected source (.noInstruction t))) :
    t ∈ successors i ∧ ¬g.Has t := by
  unfold pass at h
  rcases bind_eq_error.mp h with h | ⟨-, -, h⟩
  · cases require_eq_error h
  rcases bind_eq_error.mp h with h | ⟨effect, -, h⟩
  · exact absurd h stackEffect_ne_noInstruction
  rcases bind_eq_error.mp h with h | ⟨-, -, h⟩
  · cases require_eq_error h
  rcases bind_eq_error.mp h with h | ⟨-, -, h⟩
  · cases require_eq_error h
  obtain ⟨target, htarget, w', h⟩ := exists_of_foldlM_eq_error h
  obtain ⟨rfl, hhas⟩ := enter_eq_noInstruction hindexed h
  exact ⟨htarget, hhas⟩

theorem run_eq_noInstruction {count : Nat}
    (h : run g count w = .error (.rejected source (.noInstruction t))) :
    (∃ i ∈ g.code, t ∈ successors i) ∧ ¬g.Has t := by
  induction count generalizing w with
  | zero => cases h
  | succ count ih =>
    unfold run at h
    split at h
    · cases h
    · split at h
      · cases h
      · next i hi =>
        rcases bind_eq_error.mp h with h | ⟨w', -, h⟩
        · obtain ⟨ht, hhas⟩ := pass_eq_noInstruction hindexed h
          exact ⟨⟨i, Array.mem_of_getElem? hi, ht⟩, hhas⟩
        · exact ih h

theorem enterAll_eq_noInstruction
    (h : enterAll g = .error (.rejected source (.noInstruction t))) :
    (∃ c ∈ g.clauses, t = c.handlerOffset ∨ t ∈ c.filterOffset?) ∧ ¬g.Has t := by
  unfold enterAll at h
  obtain ⟨c, hc, w, h⟩ := exists_of_foldlM_eq_error h
  unfold enterClause at h
  rcases bind_eq_error.mp h with h | ⟨w', -, h⟩
  · obtain ⟨rfl, hhas⟩ := enter_eq_noInstruction hindexed h
    exact ⟨⟨c, hc, .inl rfl⟩, hhas⟩
  · split at h
    · next f hf =>
      obtain ⟨rfl, hhas⟩ := enter_eq_noInstruction hindexed h
      exact ⟨⟨c, hc, .inr hf⟩, hhas⟩
    · cases h

end Walk

/-- The walk complains of a missing instruction only where control would need it. -/
theorem simulateStack_eq_noInstruction {code : List (Instruction Offset)} {clauses : List Clause}
    {returnsValue : Bool} {callSites : CallSites}
    (hdistinct : (code.map Instruction.offset).Nodup) {source t : Offset}
    (h : simulateStack code clauses returnsValue callSites =
      .error (.rejected source (.noInstruction t))) :
    ((∃ c ∈ clauses, t = c.handlerOffset ∨ t ∈ c.filterOffset?) ∨
      ∃ i ∈ code, t ∈ successors i) ∧ ¬∃ i ∈ code, i.offset = t := by
  have hindexed := indexed_of clauses returnsValue callSites hdistinct
  have hhas : ¬(Ground.of code clauses returnsValue callSites).Has t →
      ¬∃ i ∈ code, i.offset = t := by
    rintro hhas ⟨i, hi, hoffset⟩
    exact hhas ⟨i, Ground.mem_code.mpr hi, hoffset⟩
  unfold simulateStack at h
  -- either while it enters, or while it goes on
  rcases bind_eq_error.mp h with h | ⟨w₀, -, h⟩
  · obtain ⟨hclause, hmissing⟩ := Walk.enterAll_eq_noInstruction hindexed h
    exact ⟨.inl hclause, hhas hmissing⟩
  · obtain ⟨⟨i, hi, ht⟩, hmissing⟩ :=
      Walk.run_eq_noInstruction hindexed (bind_pure_eq_error.mp h)
    exact ⟨.inr ⟨i, Ground.mem_code.mp hi, ht⟩, hhas hmissing⟩

/-! ### Accepted tables nest -/

section Accepted

variable {bytes : List UInt8} {code : List (Instruction Offset)} {clauses : List Clause}

/-- The walk finds an instruction wherever it looks for one, in what the check of the shape
accepts. -/
theorem WellStructured.ne_noInstruction {size : Offset} (h : WellStructured code size clauses)
    (hcont : Contiguous 0 code) (hsize : size.toNat = codeEnd 0 code)
    (hshort : codeEnd 0 code < Offset.last) (hfirst : ∀ c ∈ clauses, c.FilterFirst)
    (returnsValue : Bool) (callSites : CallSites) (source t : Offset) :
    simulateStack code clauses returnsValue callSites ≠
      .error (.rejected source (.noInstruction t)) := by
  intro herror
  -- it would miss one where control needs one, and there all of them are
  obtain ⟨hneeded, hmissing⟩ := simulateStack_eq_noInstruction (nodup_offsets hcont) herror
  rcases hneeded with ⟨c, hc, rfl | hf⟩ | ⟨i, hi, ht⟩
  · exact hmissing (h.exists_handler hcont hsize hshort hc)
  · exact hmissing (h.exists_filter hcont hsize hshort hc (hfirst c hc) hf)
  · exact hmissing (h.exists_successor hcont (Nat.le_of_lt hshort) hi ht)

/-- A table without filters that the check accepts nests.  Each range starts at an
instruction and stops behind it at a boundary; a range of an earlier clause is apart from
any range of a later one or lies in it; and the clauses that protect a position stand from
the innermost to the outermost.  Wherever control goes there is an instruction, so the walk
never misses one. -/
theorem ranges_nested (hdecode : decode bytes = .ok code) (hshort : bytes.length < Offset.last)
    (hfilter : ∀ c ∈ clauses, c.isFilter = false)
    (h : checkStructure code (.ofNat bytes.length) clauses = .ok ()) :
    (∀ c ∈ clauses, Delimits code (.ofNat bytes.length) c.tryOffset c.tryEnd c.tryContains ∧
        Delimits code (.ofNat bytes.length) c.handlerOffset c.handlerEnd c.handlerContains) ∧
      clauses.Pairwise Clause.NestsIn ∧
      (∀ o, (clauses.filter (·.tryContains o)).Pairwise fun inner outer =>
        Inside inner.tryContains outer.tryContains) ∧
      (∀ i ∈ code, ∀ t ∈ successors i, ∃ j ∈ code, j.offset = t) ∧
      ∀ returnsValue callSites source t, simulateStack code clauses returnsValue callSites ≠
        .error (.rejected source (.noInstruction t)) := by
  have hcont := (decode_eq_ok_iff.mp hdecode).2.2
  have hsize := size_of_decode hdecode (Nat.le_of_lt hshort)
  have hwell := (checkStructure_eq_ok_iff hcont hsize).mp h
  rw [← codeEnd_of_decode hdecode] at hshort
  have hfirst : ∀ c ∈ clauses, c.FilterFirst := fun c hc =>
    Clause.filterFirst_of_isFilter_eq_false (hfilter c hc)
  have hnests := hwell.nests hfirst
  refine ⟨?_, hnests, pairwise_covering hnests, ?_, ?_⟩
  · intro c hc
    rw [← Clause.handlerStart_eq (hfilter c hc)]
    exact hwell.delimits hcont hsize hshort hc (hfirst c hc)
  · intro i hi t ht
    exact hwell.exists_successor hcont (Nat.le_of_lt hshort) hi ht
  · exact hwell.ne_noInstruction hcont hsize hshort hfirst

/-- Code with a protected range in another one, each with a finally handler. -/
def nestedBytes : List UInt8 := [0x00, 0xDE, 0x01, 0xDC, 0xDE, 0x01, 0xDC, 0x2A]

def nestedCode : List (Instruction Offset) :=
  [⟨0, ⟨0x00⟩, .none⟩, ⟨1, Opcode.leaveShort, .target 4⟩, ⟨3, Opcode.endfinally, .none⟩,
    ⟨4, Opcode.leaveShort, .target 7⟩, ⟨6, Opcode.endfinally, .none⟩, ⟨7, Opcode.ret, .none⟩]

def nestedClauses : List Clause := [.finally_ 0 3 3 1, .finally_ 0 6 6 1]

theorem ranges_nested_nestedClauses :
    decode nestedBytes = .ok nestedCode ∧ (∀ c ∈ nestedClauses, c.isFilter = false) ∧
      checkStructure nestedCode (.ofNat nestedBytes.length) nestedClauses = .ok () ∧
      nestedClauses.Pairwise Clause.NestsIn ∧
      ∀ returnsValue callSites source t,
        simulateStack nestedCode nestedClauses returnsValue callSites ≠
          .error (.rejected source (.noInstruction t)) := by
  have hdecode : decode nestedBytes = .ok nestedCode := rfl
  have hfilter : ∀ c ∈ nestedClauses, c.isFilter = false := by decide
  have hcheck :
      checkStructure nestedCode (.ofNat nestedBytes.length) nestedClauses = .ok () := by
    decide
  obtain ⟨-, hnests, -, -, hwalk⟩ := ranges_nested hdecode (by decide) hfilter hcheck
  exact ⟨hdecode, hfilter, hcheck, hnests, hwalk⟩

/-- With filters that do not start behind their handlers an accepted table nests as well.
A filter starts at an instruction and makes one range with its handler, which is apart from
the protected range of its own clause. -/
theorem filters_nested (hdecode : decode bytes = .ok code) (hshort : bytes.length < Offset.last)
    (hfirst : ∀ c ∈ clauses, c.FilterFirst)
    (h : checkStructure code (.ofNat bytes.length) clauses = .ok ()) :
    (∀ c ∈ clauses, ∀ f ∈ c.filterOffset?,
        Delimits code (.ofNat bytes.length) f c.handlerEnd c.handlerContains ∧
          f ≤ c.handlerOffset ∧ c.handlerOffset < c.handlerEnd ∧
          Apart c.tryContains c.handlerContains) ∧
      clauses.Pairwise Clause.NestsIn ∧
      ∀ returnsValue callSites source t, simulateStack code clauses returnsValue callSites ≠
        .error (.rejected source (.noInstruction t)) := by
  have hcont := (decode_eq_ok_iff.mp hdecode).2.2
  have hsize := size_of_decode hdecode (Nat.le_of_lt hshort)
  have hwell := (checkStructure_eq_ok_iff hcont hsize).mp h
  rw [← codeEnd_of_decode hdecode] at hshort
  refine ⟨?_, hwell.nests hfirst, hwell.ne_noInstruction hcont hsize hshort hfirst⟩
  intro c hc f hf
  rw [← Clause.handlerStart_of_mem hf]
  exact ⟨(hwell.delimits hcont hsize hshort hc (hfirst c hc)).2,
    Clause.handlerStart_le (hfirst c hc), (hwell.proper hcont hsize hshort c hc).handler_lt,
    hwell.apart hc (hfirst c hc)⟩

/-- Code with a filter in front of its handler, and a finally handler around both. -/
def filteredBytes : List UInt8 :=
  [0xDE, 0x08, 0x26, 0x16, 0xFE, 0x11, 0x26, 0xDE, 0x01, 0xDC, 0x2A]

def filteredCode : List (Instruction Offset) :=
  [⟨0, Opcode.leaveShort, .target 10⟩, ⟨2, ⟨0x26⟩, .none⟩, ⟨3, ⟨0x16⟩, .none⟩,
    ⟨4, ⟨0xFE11⟩, .none⟩, ⟨6, ⟨0x26⟩, .none⟩, ⟨7, Opcode.leaveShort, .target 10⟩,
    ⟨9, Opcode.endfinally, .none⟩, ⟨10, Opcode.ret, .none⟩]

def filteredClauses : List Clause := [⟨.ofNat 1, 0, 2, 6, 3, 2⟩, .finally_ 0 9 9 1]

theorem filters_nested_filteredClauses :
    decode filteredBytes = .ok filteredCode ∧ (∀ c ∈ filteredClauses, c.FilterFirst) ∧
      checkStructure filteredCode (.ofNat filteredBytes.length) filteredClauses = .ok () ∧
      filteredClauses.Pairwise Clause.NestsIn ∧
      ∀ returnsValue callSites source t,
        simulateStack filteredCode filteredClauses returnsValue callSites ≠
          .error (.rejected source (.noInstruction t)) := by
  have hdecode : decode filteredBytes = .ok filteredCode := rfl
  have hfirst : ∀ c ∈ filteredClauses, c.FilterFirst := by decide
  have hcheck :
      checkStructure filteredCode (.ofNat filteredBytes.length) filteredClauses = .ok () := by
    decide
  obtain ⟨-, hnests, hwalk⟩ := filters_nested hdecode (by decide) hfirst hcheck
  exact ⟨hdecode, hfirst, hcheck, hnests, hwalk⟩

/-- Code whose only protected range is its first instruction. -/
def filterBehindBytes : List UInt8 := [0xDE, 0x03, 0x26, 0xDE, 0x00, 0x2A]

def filterBehindCode : List (Instruction Offset) :=
  [⟨0, Opcode.leaveShort, .target 5⟩, ⟨2, ⟨0x26⟩, .none⟩, ⟨3, Opcode.leaveShort, .target 5⟩,
    ⟨5, Opcode.ret, .none⟩]

/-- A clause whose filter starts where the code ends. -/
def filterAtEnd : Clause := ⟨.ofNat 1, 0, 2, 2, 3, 6⟩

/-- A clause whose filter starts in its handler, which handles part of what is protected. -/
def filterInHandler : Clause := ⟨.ofNat 1, 0, 3, 2, 3, 3⟩

/-- The check does not ask that filters come first.  It accepts a filter where there is no
instruction, which only the walk notices, and a handler in its own protected range. -/
theorem filterBehind_accepted :
    decode filterBehindBytes = .ok filterBehindCode ∧
      checkStructure filterBehindCode (.ofNat filterBehindBytes.length) [filterAtEnd] = .ok () ∧
      filterAtEnd.filterOffset? = some 6 ∧ ¬6 < filterAtEnd.handlerOffset ∧
      (∀ returnsValue callSites,
        simulateStack filterBehindCode [filterAtEnd] returnsValue callSites =
          .error (.rejected 6 (.noInstruction 6))) ∧
      checkStructure filterBehindCode (.ofNat filterBehindBytes.length) [filterInHandler] =
        .ok () ∧
      ¬Apart filterInHandler.tryContains filterInHandler.handlerContains := by
  refine ⟨rfl, by decide, rfl, by decide, fun _ _ => by cbv, by decide, ?_⟩
  exact not_apart (o := 2) (by decide) (by decide)

end Accepted

end Check

end CilProbe
