/-
CilProbe/Proofs/Probe/Structure.lean

Instrumenting keeps the shape of code.  The ranges of the method's clauses move with
the code in order, so they go together as before; the ranges of the exit probe hold
all of them and come last in the table (`Relocated.wellStructured`).
-/
import CilProbe.Check.Body
import CilProbe.Engine.Instrument
import CilProbe.Proofs.Probe.Relocation

namespace CilProbe

open Check

/-! ### Positions and lengths -/

theorem Offset.after_distance {a b : Offset} (h : a ≤ b) : a.after (distance a b).toNat = b := by
  rw [UInt32.le_iff_toNat_le] at h
  have hb := b.toNat_lt
  apply UInt32.toNat_inj.mp
  rw [toNat_after, toNat_distance, last]
  omega

theorem Offset.distance_ne_zero {a b : Offset} (h : a < b) : distance a b ≠ 0 := by
  rw [UInt32.lt_iff_toNat_lt] at h
  intro hzero
  have := congrArg UInt32.toNat hzero
  rw [toNat_distance, UInt32.toNat_zero] at this
  omega

/-! ### Clauses of the method -/

section Moved

variable {code : List (Instruction Offset)} {size : Offset} {cl : Clause} {n : Nat}

/-- The ranges of a clause that was moved are those of the clause, moved. -/
theorem blocksOf_moved {edge : Offset → Offset} (hfilter : cl.isFilter = false)
    (htry : edge cl.tryOffset ≤ edge cl.tryEnd)
    (hhandler : edge cl.handlerOffset ≤ edge cl.handlerEnd) :
    protectedBlock n (cl.moved edge) = (protectedBlock n cl).moved edge ∧
      handlerBlock n (cl.moved edge) = (handlerBlock n cl).moved edge ∧
      (cl.moved edge).handlerStart = (cl.moved edge).handlerOffset := by
  have hstart := Clause.handlerStart_eq hfilter
  have hstart' : (cl.moved edge).handlerStart = (cl.moved edge).handlerOffset :=
    Clause.handlerStart_eq hfilter
  refine ⟨?_, ?_, hstart'⟩
  · exact congrArg (Block.mk n (edge cl.tryOffset)) (Offset.after_distance htry)
  · unfold handlerBlock Block.moved
    rw [hstart', hstart]
    exact congrArg (Block.mk n (edge cl.handlerOffset)) (Offset.after_distance hhandler)

end Moved

namespace Relocated

variable {body : MethodBody} {code : List (Instruction Offset)} {size : Offset}
  {method enter : Token} {answerSlot : UInt16} {plan : Option ExitPlan} {r : ProbedMethod}
  {c : CodeParts} (h : Relocated body code size method enter answerSlot plan r c)
include h

/-! ### Targets -/

/-- An instruction of the new code belongs to the image of one of the method, or says
something that has no targets. -/
theorem mem_all_cases {i : Instruction Offset} (hi : i ∈ c.all) :
    (∃ (k : Nat) (o : Instruction Offset) (image : List (Instruction Offset)),
      code[k]? = some o ∧ c.images[k]? = some image ∧ i ∈ image) ∨
      i.operand.targets = [] := by
  have hnone : ∀ {is : List (Instruction Offset)} {acts : List (Act Offset)}
      (as : List (Act Empty)), as.map (Act.map Empty.elim) = acts →
        is.map Instruction.act = acts → i ∈ is → i.operand.targets = [] := by
    intro is acts as hmap hacts hi
    exact targets_of_map_empty as hmap i.act (hacts ▸ List.mem_map_of_mem hi)
  simp only [CodeParts.all, CodeParts.inner, List.mem_append, List.mem_flatten] at hi
  rcases hi with hi | ⟨image, himage, hi⟩ | hi | hi | hi
  · exact .inr (hnone _ (entryActs_map Empty.elim answerSlot method enter) h.entry hi)
  · obtain ⟨k, hk⟩ := List.mem_iff_getElem?.mp himage
    have hlt := (List.getElem?_eq_some_iff.mp hk).1
    rw [h.count] at hlt
    exact .inl ⟨k, code[k], image, List.getElem?_eq_getElem hlt, hk, hi⟩
  · rcases plan with - | p
    · exact .inr (hnone [] rfl h.catch_ hi)
    · exact .inr (hnone _ (p.catchActs_map Empty.elim) h.catch_ hi)
  · rcases plan with - | p
    · exact .inr (hnone [] rfl h.finally_ hi)
    · exact .inr (hnone _ (p.finallyActs_map Empty.elim answerSlot) h.finally_ hi)
  · rcases plan with - | p
    · exact .inr (hnone [] rfl h.epilogue hi)
    · exact .inr (hnone _ (p.epilogueActs_map Empty.elim) h.epilogue hi)

/-- Where an instruction has gone there is one. -/
theorem exists_move {i : Instruction Offset} (hi : i ∈ code) :
    ∃ j ∈ c.all, j.offset = r.move i.offset := by
  obtain ⟨k, hk⟩ := List.mem_iff_getElem?.mp hi
  obtain ⟨j, rest, hj, hoffset, -⟩ := h.image k i hk
  exact ⟨j, c.mem_all_of_mem hj List.mem_cons_self, hoffset⟩

/-- The exit probe has an epilogue. -/
theorem exists_epilogue {p : ExitPlan} (hplan : plan = some p) :
    ∃ first rest, c.epilogue = first :: rest := by
  have hepilogue := h.epilogue
  rw [hplan, Option.elim_some] at hepilogue
  rcases hc : c.epilogue with - | ⟨first, rest⟩
  · rw [hc] at hepilogue
    simp [ExitPlan.epilogueActs] at hepilogue
  · exact ⟨first, rest, rfl⟩

/-- Every target is an instruction. -/
theorem targets_all :
    ∀ i ∈ c.all, ∀ t ∈ i.operand.targets, ∃ j ∈ c.all, j.offset = t := by
  intro i hi t ht
  rcases h.mem_all_cases hi with ⟨k, o, image, ho, himage, hi⟩ | hnone
  · obtain ⟨j, rest, hj, -, hacts⟩ := h.image k o ho
    obtain rfl := Option.some.inj (himage.symm.trans hj)
    have hact : i.act ∈ imageActs plan r.move (.ofNat c.epilogueStart) o :=
      hacts ▸ List.mem_map_of_mem hi
    rcases targets_imageActs hact t ht with ⟨u, hu, rfl⟩ | ⟨hplan, rfl⟩
    · obtain ⟨o', ho', rfl⟩ := h.targets o (List.mem_of_getElem? ho) u hu
      exact h.exists_move ho'
    · obtain ⟨p, hp⟩ := Option.isSome_iff_exists.mp hplan
      obtain ⟨first, rest, hc⟩ := h.exists_epilogue hp
      refine ⟨first, ?_, h.head?_epilogue first (by rw [hc]; rfl)⟩
      unfold CodeParts.all
      rw [hc]
      simp
  · rw [hnone] at ht
    cases ht

/-- Without an exit probe the last instruction is the image of the method's last one. -/
theorem last_all_of_none (hplan : plan = none) {last : Instruction Offset}
    (hlast : code.getLast? = some last) (hflow : last.opcode.info.flow.fallsThrough = false) :
    ∃ last, c.all.getLast? = some last ∧ last.opcode.info.flow.fallsThrough = false := by
  subst hplan
  rw [List.getLast?_eq_getElem?] at hlast
  obtain ⟨j, rest, hj, -, hacts⟩ := h.image _ last hlast
  obtain ⟨hact, hrest⟩ := List.cons.inj hacts
  obtain rfl := List.map_eq_nil_iff.mp hrest
  have hnil : c.tail = [] := by
    unfold CodeParts.tail
    rw [List.map_eq_nil_iff.mp h.catch_, List.map_eq_nil_iff.mp h.finally_,
      List.map_eq_nil_iff.mp h.epilogue]
    rfl
  have hlen : c.images.length = code.length := h.count
  have hpos := (List.getElem?_eq_some_iff.mp hlast).1
  refine ⟨j, ?_, ?_⟩
  · rw [c.all_eq_image hj, hnil, List.drop_of_length_le (by omega)]
    simp
  · have hop : j.opcode.longForm = last.opcode.longForm := congrArg Act.opcode hact
    rw [← Opcode.flow_longForm, hop, Opcode.flow_longForm, hflow]

/-- With one it is the return at the end of the epilogue. -/
theorem last_all_of_some {p : ExitPlan} (hplan : plan = some p) :
    ∃ last, c.all.getLast? = some last ∧ last.opcode.info.flow.fallsThrough = false := by
  have hepilogue := h.epilogue
  rw [hplan, Option.elim_some, ExitPlan.epilogueActs] at hepilogue
  obtain ⟨before, last, hc, -, hlast⟩ := List.map_eq_append_iff.mp hepilogue
  obtain ⟨j, rest, rfl, hj, hrest⟩ := List.map_eq_cons_iff.mp hlast
  obtain rfl := List.map_eq_nil_iff.mp hrest
  refine ⟨j, ?_, ?_⟩
  · unfold CodeParts.all
    rw [hc]
    simp only [← List.append_assoc]
    exact List.getLast?_concat
  · have hop : j.opcode.longForm = Opcode.ret := congrArg Act.opcode hj
    rw [← Opcode.flow_longForm, hop]
    decide +kernel

/-- Control does not run on behind the last instruction. -/
theorem last_all (hcode : ∃ last, code.getLast? = some last ∧
      last.opcode.info.flow.fallsThrough = false) :
    ∃ last, c.all.getLast? = some last ∧ last.opcode.info.flow.fallsThrough = false := by
  obtain ⟨last, hlast, hflow⟩ := hcode
  cases hplan : plan with
  | none => exact last_all_of_none h hplan hlast hflow
  | some p => exact last_all_of_some h hplan

/-! ### Clauses of the method -/

/-- The ends of the method's ranges keep their order. -/
theorem edge_increasing (hcont : Contiguous 0 code) (hsize : size.toNat = codeEnd 0 code) :
    Increasing (AtBoundary code size) (r.edge (.ofNat c.innerEnd)) :=
  fun _ _ ho ho' hlt => UInt32.lt_iff_toNat_lt.mpr (h.edge_lt_edge hcont hsize ho ho' hlt)

/-- The ranges of a clause of the method, moved. -/
theorem blocks_moved (hcont : Contiguous 0 code) (hsize : size.toNat = codeEnd 0 code)
    {cl : Clause} (hcl : cl.Proper code size) (hfilter : cl.isFilter = false) (n : Nat) :
    blocksOf (cl.moved (r.edge (.ofNat c.innerEnd)), n) =
      (blocksOf (cl, n)).map (Block.moved (r.edge (.ofNat c.innerEnd))) := by
  have hmono := h.edge_increasing hcont hsize
  obtain ⟨htry, hhandler, -⟩ := blocksOf_moved (n := n) hfilter
    (UInt32.le_of_lt (hmono hcl.tryStart hcl.tryEnd hcl.try_lt))
    (UInt32.le_of_lt (hmono hcl.handlerStart hcl.handlerEnd hcl.handler_lt))
  unfold blocksOf
  simp only [htry, hhandler, List.map_cons, List.map_nil]

/-- A clause of the method is well placed in the new code. -/
theorem wellPlaced_moved (hcont : Contiguous 0 code) (hsize : size.toNat = codeEnd 0 code)
    {cl : Clause} (hcl : cl.Proper code size) (hfilter : cl.isFilter = false) {n : Nat}
    (hplaced : WellPlaced code size n cl) :
    WellPlaced c.all (.ofNat (codeEnd 0 c.all)) n (cl.moved (r.edge (.ofNat c.innerEnd))) := by
  have hmono := h.edge_increasing hcont hsize
  have htry := hmono hcl.tryStart hcl.tryEnd hcl.try_lt
  have hhandler := hmono hcl.handlerStart hcl.handlerEnd hcl.handler_lt
  obtain ⟨htry', hhandler', hstart⟩ := blocksOf_moved (n := n) hfilter (UInt32.le_of_lt htry)
    (UInt32.le_of_lt hhandler)
  have hstart' := Clause.handlerStart_eq hfilter
  constructor
  case edges =>
    have hat := @Relocated.atBoundary_edge _ _ _ _ _ _ _ _ _ h hcont hsize
    simp only [Check.edges, List.forall_mem_cons, hstart]
    refine ⟨hat hcl.tryStart, ?_, hat hcl.handlerStart, hat hcl.handlerStart, ?_, by simp⟩
    · rw [show (cl.moved _).tryEnd = _ from congrArg Block.stop htry']
      exact hat hcl.tryEnd
    · rw [show (cl.moved _).handlerEnd = _ from congrArg Block.stop hhandler']
      exact hat hcl.handlerEnd
  case tryLength => exact Offset.distance_ne_zero htry
  case handlerLength => exact Offset.distance_ne_zero hhandler
  case apart =>
    -- ranges that overlap now did so before
    rw [htry', hhandler', Block.overlaps_iff]
    rintro ⟨h₁, h₂⟩
    refine hplaced.apart (Block.overlaps_iff.mpr ⟨?_, ?_⟩)
    · exact (hmono.lt_iff hcl.tryStart hcl.handlerEnd).mp h₁
    · refine (hmono.lt_iff ?_ hcl.tryEnd).mp h₂
      rw [handlerBlock, hstart']
      exact hcl.handlerStart

/-! ### Clauses of the exit probe -/

/-- Where the parts around the code of the method start. -/
structure Fences (c : CodeParts) (exceptionType : Option Token) (start behind finally_ epilogue :
    Offset) : Prop where
  start_lt : start < behind
  behind_le : behind ≤ finally_
  behind_lt : exceptionType.isSome → behind < finally_
  finally_lt : finally_ < epilogue
  start_at : AtBoundary c.all (.ofNat (codeEnd 0 c.all)) start
  behind_at : AtBoundary c.all (.ofNat (codeEnd 0 c.all)) behind
  finally_at : AtBoundary c.all (.ofNat (codeEnd 0 c.all)) finally_
  epilogue_at : AtBoundary c.all (.ofNat (codeEnd 0 c.all)) epilogue

theorem fences {p : ExitPlan} (hplan : plan = some p) (hcode : code ≠ []) :
    Fences c p.exceptionType (.ofNat c.innerStart) (.ofNat c.innerEnd) (.ofNat c.finallyStart)
      (.ofNat c.epilogueStart) := by
  subst hplan
  obtain ⟨hle₁, hle₂, hle₃, hle₄⟩ := c.starts_le
  have hinner : c.inner ≠ [] := by
    obtain ⟨i, code, rfl⟩ := List.exists_cons_of_ne_nil hcode
    obtain ⟨j, rest, hj, -⟩ := h.image 0 i rfl
    intro hnil
    exact List.cons_ne_nil j rest (List.flatten_eq_nil_iff.mp hnil _ (List.mem_of_getElem? hj))
  have hnat : ∀ n ≤ codeEnd 0 c.all, (UInt32.ofNat n).toNat = n := fun n hn => h.toNat_ofNat hn
  -- each fence stands between the parts before it and those behind it
  have hat : ∀ before after : List (Instruction Offset), c.all = before ++ after →
      AtBoundary c.all (.ofNat (codeEnd 0 c.all)) (.ofNat (codeEnd 0 before)) := by
    intro before after hall
    have hcont := h.contiguous
    rw [hall] at hcont ⊢
    exact atBoundary_codeEnd hcont
  constructor
  case start_lt =>
    rw [UInt32.lt_iff_toNat_lt, hnat _ (by omega), hnat _ (by omega)]
    exact codeEnd_lt hinner
  case behind_le =>
    rw [UInt32.le_iff_toNat_le, hnat _ (by omega), hnat _ (by omega)]
    exact hle₂
  case behind_lt =>
    intro hsome
    rw [UInt32.lt_iff_toNat_lt, hnat _ (by omega), hnat _ (by omega)]
    exact codeEnd_lt (h.catch_ne_nil hsome)
  case finally_lt =>
    rw [UInt32.lt_iff_toNat_lt, hnat _ (by omega), hnat _ (by omega)]
    exact codeEnd_lt h.finally_ne_nil
  case start_at => exact hat c.entry _ rfl
  case behind_at => exact c.split_catch.2 ▸ hat _ _ c.split_catch.1
  case finally_at => exact c.split_finally.2 ▸ hat _ _ c.split_finally.1
  case epilogue_at => exact c.split_epilogue.2 ▸ hat _ _ c.split_epilogue.1

end Relocated

/-- A clause that protects what is between two positions, with its handler from there up to a
third one. -/
structure Abuts (cl : Clause) (start middle stop : Offset) : Prop where
  filter : cl.isFilter = false
  tryOffset : cl.tryOffset = start
  tryLength : cl.tryLength = Offset.distance start middle
  handlerOffset : cl.handlerOffset = middle
  handlerLength : cl.handlerLength = Offset.distance middle stop

namespace Abuts

variable {cl : Clause} {start middle stop : Offset} (h : Abuts cl start middle stop)
include h

theorem tryEnd (hle : start ≤ middle) : cl.tryEnd = middle := by
  rw [Clause.tryEnd, h.tryOffset, h.tryLength, Offset.after_distance hle]

theorem handlerEnd (hle : middle ≤ stop) : cl.handlerEnd = stop := by
  rw [Clause.handlerEnd, h.handlerOffset, h.handlerLength, Offset.after_distance hle]

theorem handlerStart : cl.handlerStart = middle := by
  rw [Clause.handlerStart_eq h.filter, h.handlerOffset]

theorem blocksOf (hstart : start ≤ middle) (hstop : middle ≤ stop) (n : Nat) :
    Check.blocksOf (cl, n) = [⟨n, start, middle⟩, ⟨n, middle, stop⟩] := by
  rw [Check.blocksOf, protectedBlock, handlerBlock, h.tryOffset, h.tryEnd hstart, h.handlerStart,
    h.handlerEnd hstop]

/-- It is well placed if the positions are boundaries in order. -/
theorem wellPlaced {code : List (Instruction Offset)} {size : Offset} (hstart : start < middle)
    (hstop : middle < stop) (start_at : AtBoundary code size start)
    (middle_at : AtBoundary code size middle) (stop_at : AtBoundary code size stop) (n : Nat) :
    WellPlaced code size n cl := by
  have htryEnd := h.tryEnd (UInt32.le_of_lt hstart)
  have hhandlerEnd := h.handlerEnd (UInt32.le_of_lt hstop)
  constructor
  case edges =>
    simp only [Check.edges, List.forall_mem_cons, h.tryOffset, htryEnd, h.handlerStart,
      h.handlerOffset, hhandlerEnd]
    exact ⟨start_at, middle_at, middle_at, middle_at, stop_at, by simp⟩
  case tryLength =>
    rw [h.tryLength]
    exact Offset.distance_ne_zero hstart
  case handlerLength =>
    rw [h.handlerLength]
    exact Offset.distance_ne_zero hstop
  case apart =>
    rw [protectedBlock, handlerBlock, h.handlerStart, htryEnd]
    exact fun hover => UInt32.lt_irrefl _ (Block.overlaps_iff.mp hover).2

end Abuts

/-- The ranges of the exit probe, whose clauses have the numbers from `n` on. -/
def exitBlocks (exceptionType : Option Token) (n : Nat) (start behind finally_ epilogue : Offset) :
    List Block :=
  match exceptionType with
  | some _ =>
    [⟨n, start, behind⟩, ⟨n, behind, finally_⟩, ⟨n + 1, start, finally_⟩,
      ⟨n + 1, finally_, epilogue⟩]
  | none => [⟨n, start, finally_⟩, ⟨n, finally_, epilogue⟩]

/-- Two ranges of which the second one reaches over the first. -/
theorem compatible_of_encloses {a b : Block} (hstart : b.start ≤ a.start)
    (hstop : a.stop ≤ b.stop) : a.Compatible b := by
  refine ⟨fun _ => .inr (Block.encloses_iff.mpr ⟨hstart, hstop⟩), fun _ hstrict => ?_⟩
  obtain ⟨hencloses, hne⟩ := Block.strictlyEncloses_iff.mp hstrict
  obtain ⟨hstart', hstop'⟩ := Block.encloses_iff.mp hencloses
  exact hne ⟨UInt32.le_antisymm hstart' hstart, UInt32.le_antisymm hstop hstop'⟩

/-- Two ranges of which the first one ends before the second. -/
theorem compatible_of_stop_le {a b : Block} (h : a.stop ≤ b.start) (hb : b.start < b.stop) :
    a.Compatible b := by
  refine ⟨fun hover => ?_, fun _ hstrict => ?_⟩
  · obtain ⟨-, hlt⟩ := Block.overlaps_iff.mp hover
    exact absurd h (UInt32.not_le.mpr hlt)
  · obtain ⟨hencloses, -⟩ := Block.strictlyEncloses_iff.mp hstrict
    obtain ⟨-, hle⟩ := Block.encloses_iff.mp hencloses
    exact absurd (UInt32.lt_of_lt_of_le hb (UInt32.le_trans hle h)) (UInt32.lt_irrefl _)

namespace Relocated.Fences

variable {c : CodeParts} {exceptionType : Option Token} {start behind finally_ epilogue : Offset}
  (h : Fences c exceptionType start behind finally_ epilogue)
include h

/-- A range of the method goes together with those of the exit probe. -/
theorem compatible {a : Block} (hstart : start ≤ a.start) (hstop : a.stop ≤ behind) {n : Nat} :
    ∀ b ∈ exitBlocks exceptionType n start behind finally_ epilogue, a.Compatible b := by
  have hstop' := UInt32.le_trans hstop h.behind_le
  have hlast : ∀ n, a.Compatible ⟨n, finally_, epilogue⟩ := fun n =>
    compatible_of_stop_le hstop' h.finally_lt
  unfold exitBlocks
  rcases exceptionType with - | type
  · simp only [List.forall_mem_cons]
    exact ⟨compatible_of_encloses hstart hstop', hlast n, by simp⟩
  · simp only [List.forall_mem_cons]
    exact ⟨compatible_of_encloses hstart hstop, compatible_of_stop_le hstop (h.behind_lt rfl),
      compatible_of_encloses hstart hstop', hlast _, by simp⟩

/-- The ranges of the exit probe go together. -/
theorem pairwise {n : Nat} :
    (exitBlocks exceptionType n start behind finally_ epilogue).Pairwise Block.Compatible := by
  have hlt := UInt32.lt_of_lt_of_le h.start_lt h.behind_le
  unfold exitBlocks
  rcases exceptionType with - | type
  · simp only [List.pairwise_cons, List.forall_mem_cons]
    exact ⟨⟨compatible_of_stop_le (UInt32.le_refl _) h.finally_lt, by simp⟩, by simp⟩
  · have hbehind := h.behind_lt rfl
    simp only [List.pairwise_cons, List.forall_mem_cons]
    refine ⟨⟨?_, ?_, ?_, by simp⟩, ⟨?_, ?_, by simp⟩, ⟨?_, by simp⟩, by simp⟩
    · exact compatible_of_stop_le (UInt32.le_refl _) hbehind
    · exact compatible_of_encloses (UInt32.le_refl _) h.behind_le
    · exact compatible_of_stop_le h.behind_le h.finally_lt
    · exact compatible_of_encloses (UInt32.le_of_lt h.start_lt) (UInt32.le_refl _)
    · exact compatible_of_stop_le (UInt32.le_refl _) h.finally_lt
    · exact compatible_of_stop_le (UInt32.le_refl _) h.finally_lt

end Relocated.Fences

namespace Relocated

variable {body : MethodBody} {code : List (Instruction Offset)} {size : Offset}
  {method enter : Token} {answerSlot : UInt16} {plan : Option ExitPlan} {r : ProbedMethod}
  {c : CodeParts}

/-- The clauses of the exit probe have their handlers right behind what they protect. -/
theorem abuts_exitClauses {exceptionType : Option Token} {cl : Clause}
    (hcl : cl ∈ c.exitClauses exceptionType) :
    (exceptionType.isSome ∧
        Abuts cl (.ofNat c.innerStart) (.ofNat c.innerEnd) (.ofNat c.finallyStart)) ∨
      Abuts cl (.ofNat c.innerStart) (.ofNat c.finallyStart) (.ofNat c.epilogueStart) := by
  rcases List.mem_append.mp hcl with hcl | hcl
  · obtain ⟨type, htype, rfl⟩ := Option.map_eq_some_iff.mp (Option.mem_toList.mp hcl)
    exact .inl ⟨by rw [htype]; rfl, ⟨rfl, rfl, rfl, rfl, rfl⟩⟩
  · obtain rfl := List.mem_singleton.mp hcl
    exact .inr ⟨rfl, rfl, rfl, rfl, rfl⟩

/-- The ranges of the exit probe's clauses, in table order. -/
theorem blocks_exitClauses {exceptionType : Option Token}
    (h : Fences c exceptionType (.ofNat c.innerStart) (.ofNat c.innerEnd) (.ofNat c.finallyStart)
      (.ofNat c.epilogueStart)) (n : Nat) :
    ((c.exitClauses exceptionType).zipIdx n).flatMap blocksOf =
      exitBlocks exceptionType n (.ofNat c.innerStart) (.ofNat c.innerEnd)
        (.ofNat c.finallyStart) (.ofNat c.epilogueStart) := by
  have hle := UInt32.le_of_lt h.start_lt
  unfold CodeParts.exitClauses exitBlocks
  rcases exceptionType with - | type
  · simp only [Option.map_none, Option.toList_none, List.nil_append, List.zipIdx_cons,
      List.zipIdx_nil, List.flatMap_cons, List.flatMap_nil]
    rw [Abuts.blocksOf ⟨rfl, rfl, rfl, rfl, rfl⟩ (UInt32.le_trans hle h.behind_le)
      (UInt32.le_of_lt h.finally_lt)]
    rfl
  · simp only [Option.map_some, Option.toList_some, List.cons_append, List.nil_append,
      List.zipIdx_cons, List.zipIdx_nil, List.flatMap_cons, List.flatMap_nil]
    rw [Abuts.blocksOf ⟨rfl, rfl, rfl, rfl, rfl⟩ hle h.behind_le,
      Abuts.blocksOf ⟨rfl, rfl, rfl, rfl, rfl⟩ (UInt32.le_trans hle h.behind_le)
        (UInt32.le_of_lt h.finally_lt)]
    rfl

/-- The clauses of the exit probe are well placed. -/
theorem wellPlaced_exitClauses {exceptionType : Option Token}
    (h : Fences c exceptionType (.ofNat c.innerStart) (.ofNat c.innerEnd) (.ofNat c.finallyStart)
      (.ofNat c.epilogueStart)) (n : Nat) :
    ∀ cl ∈ c.exitClauses exceptionType,
      WellPlaced c.all (.ofNat (codeEnd 0 c.all)) n cl := by
  intro cl hcl
  rcases abuts_exitClauses hcl with ⟨hsome, habuts⟩ | habuts
  · exact habuts.wellPlaced h.start_lt (h.behind_lt hsome) h.start_at h.behind_at h.finally_at
      n
  · exact habuts.wellPlaced (UInt32.lt_of_lt_of_le h.start_lt h.behind_le) h.finally_lt h.start_at
      h.finally_at h.epilogue_at n

/-! ### The whole shape -/

section Whole

variable (h : Relocated body code size method enter answerSlot plan r c)
  (hcont : Contiguous 0 code) (hsize : size.toNat = codeEnd 0 code)
  (hproper : ∀ cl ∈ body.clauses, cl.Proper code size)
  (hfilter : ∀ cl ∈ body.clauses, cl.isFilter = false)
include h hcont hsize hproper hfilter

/-- The ranges of the method's clauses are those from before, moved. -/
theorem blocks_map_moved :
    blocks (body.clauses.map (Clause.moved (r.edge (.ofNat c.innerEnd)))) =
      (blocks body.clauses).map (Block.moved (r.edge (.ofNat c.innerEnd))) := by
  rw [blocks_eq, blocks_eq, List.zipIdx_map, List.flatMap_map, List.map_flatMap]
  refine List.flatMap_congr fun cl hcl => ?_
  have hmem := List.fst_mem_of_mem_zipIdx hcl
  exact h.blocks_moved hcont hsize (hproper _ hmem) (hfilter _ hmem) cl.2

/-- They end at boundaries and lie within the code of the method. -/
theorem block_between {b : Block} (hb : b ∈ blocks body.clauses) :
    (AtBoundary code size b.start ∧ AtBoundary code size b.stop) ∧
      UInt32.ofNat c.innerStart ≤ (b.moved (r.edge (.ofNat c.innerEnd))).start ∧
      (b.moved (r.edge (.ofNat c.innerEnd))).stop ≤ .ofNat c.innerEnd := by
  have hle := c.starts_le
  have hbetween : ∀ {o}, AtBoundary code size o →
      UInt32.ofNat c.innerStart ≤ r.edge (.ofNat c.innerEnd) o ∧
        r.edge (.ofNat c.innerEnd) o ≤ .ofNat c.innerEnd := by
    intro o ho
    obtain ⟨hlow, hhigh⟩ := h.edge_between hcont hsize ho
    rw [UInt32.le_iff_toNat_le, UInt32.le_iff_toNat_le, h.toNat_ofNat (by omega),
      h.toNat_ofNat (by omega)]
    exact ⟨hlow, hhigh⟩
  rw [blocks_eq] at hb
  obtain ⟨⟨cl, n⟩, hcl, hb⟩ := List.mem_flatMap.mp hb
  have hmem := List.fst_mem_of_mem_zipIdx hcl
  have hcl' := hproper _ hmem
  have hstart := Clause.handlerStart_eq (hfilter _ hmem)
  simp only [blocksOf, List.mem_cons, List.not_mem_nil, or_false] at hb
  rcases hb with rfl | rfl
  · exact ⟨⟨hcl'.tryStart, hcl'.tryEnd⟩, (hbetween hcl'.tryStart).1, (hbetween hcl'.tryEnd).2⟩
  · rw [handlerBlock, hstart]
    exact ⟨⟨hcl'.handlerStart, hcl'.handlerEnd⟩, (hbetween hcl'.handlerStart).1,
      (hbetween hcl'.handlerEnd).2⟩

end Whole

/-- Code of the right shape, with clauses that hold something, still has it when it is
instrumented. -/
theorem wellStructured (h : Relocated body code size method enter answerSlot plan r c)
    (hcont : Contiguous 0 code) (hsize : size.toNat = codeEnd 0 code)
    (hproper : ∀ cl ∈ body.clauses, cl.Proper code size)
    (hfilter : ∀ cl ∈ body.clauses, cl.isFilter = false)
    (hcode : WellStructured code size body.clauses) :
    WellStructured c.all (.ofNat (codeEnd 0 c.all))
      (body.clauses.map (Clause.moved (r.edge (.ofNat c.innerEnd))) ++
        plan.elim [] fun p => c.exitClauses p.exceptionType) := by
  have hne : code ≠ [] := by
    obtain ⟨last, hlast, -⟩ := hcode.last
    rintro rfl
    cases hlast
  constructor
  case last => exact h.last_all hcode.last
  case targets => exact h.targets_all
  case placed =>
    intro cl hcl
    rw [List.zipIdx_append, List.mem_append, List.zipIdx_map] at hcl
    rcases hcl with hcl | hcl
    · obtain ⟨⟨old, n⟩, hold, rfl⟩ := List.mem_map.mp hcl
      have hmem := List.fst_mem_of_mem_zipIdx hold
      exact h.wellPlaced_moved hcont hsize (hproper _ hmem) (hfilter _ hmem)
        (hcode.placed _ hold)
    · have hmem := List.fst_mem_of_mem_zipIdx hcl
      rcases hplan : plan with - | p
      · rw [hplan] at hmem
        cases hmem
      · rw [hplan] at hmem
        exact wellPlaced_exitClauses (h.fences hplan hne) cl.2 cl.1 hmem
  case compatible =>
    rw [blocks_eq, List.zipIdx_append, List.flatMap_append, ← blocks_eq,
      h.blocks_map_moved hcont hsize hproper hfilter]
    have hmoved : ((blocks body.clauses).map
        (Block.moved (r.edge (.ofNat c.innerEnd)))).Pairwise Block.Compatible := by
      rw [List.pairwise_map]
      refine hcode.compatible.imp_of_mem fun ha hb hab => ?_
      exact hab.moved (h.edge_increasing hcont hsize)
        (h.block_between hcont hsize hproper hfilter ha).1
        (h.block_between hcont hsize hproper hfilter hb).1
    -- those of the exit probe come last, and each one of the method lies in them or before them
    rcases hplan : plan with - | p
    · simpa using hmoved
    · have hfences := h.fences hplan hne
      rw [Option.elim_some, blocks_exitClauses hfences]
      refine List.pairwise_append.mpr ⟨hmoved, hfences.pairwise, ?_⟩
      intro a ha b hb
      obtain ⟨old, hold, rfl⟩ := List.mem_map.mp ha
      obtain ⟨-, hstart, hstop⟩ := h.block_between hcont hsize hproper hfilter hold
      exact hfences.compatible hstart hstop b hb

end Relocated

end CilProbe
