/-
CilProbe/Proofs/Check/Bounds.lean

The check of the stack counts in 16-bit words, control does not.  Let control carry the
depth as a whole number, which may go below zero and above any bound (`Arrives`).  As long
as no call takes more values than a word can count, and no depth is the largest word,
nothing wraps, so the number is the word that the check has found (`Arrives.depth_eq`) and
the declared bound is one for it (`stack_bounds`).

Depths go up by one at most, so on its way to a depth control has been at each smaller
one, and there are more instructions than that (`depth_lt_length`): code of fewer than
65536 instructions cannot reach the largest word.

Both conditions are needed.  To the check, a call that takes 65536 values more takes no
more (`simulateStack_callsTaking_add`), so it accepts calls that find too little
(`wideCall_accepted`); and it accepts code that loads 65536 values and returns with them
(`loads_accepted`).
-/
import CilProbe.Proofs.Check.Body
import CilProbe.Proofs.Check.Depths

namespace CilProbe

/-! ### Growth of the stack -/

/-- A fixed number of values; calls count elsewhere. -/
def StackUse.fixed : StackUse → Nat
  | .slots count => count
  | .signature => 0

namespace Opcode

theorem growth_table :
    ∀ info ∈ OpcodeInfo.oneByte ++ OpcodeInfo.twoByte,
      info.pops.fixed < 0x100 ∧ info.pushes.fixed ≤ info.pops.fixed + 1 := by
  decide +kernel

/-- No code takes many values, and none puts more than one on top of what it took. -/
theorem growth (op : Opcode) :
    op.info.pops.fixed < 0x100 ∧ op.info.pushes.fixed ≤ op.info.pops.fixed + 1 := by
  rcases hinfo : op.info? with - | info
  · rw [info, hinfo]
    simp [OpcodeInfo.reserved, StackUse.fixed]
  · rw [info_of_info? hinfo]
    exact growth_table info (mem_table_of_info? hinfo)

end Opcode

namespace Check

variable {code : List (Instruction Offset)} {clauses : List Clause} {returnsValue : Bool}
  {callSites : CallSites} {i : Instruction Offset} {pops pushes : Nat}

/-- Each instruction leaves at most one value more than it found. -/
theorem Effect.pushes_le (h : Effect callSites returnsValue i pops pushes) :
    pushes ≤ pops + 1 := by
  cases h with
  | table hpops hpushes =>
    have hgrowth := i.opcode.growth.2
    rw [hpops, hpushes] at hgrowth
    exact hgrowth
  | ret => exact Nat.zero_le _
  | @call token s hcalls htoken hsite =>
    have hgives : callGives i.opcode s ≤ 1 := by
      unfold callGives
      split
      · exact Nat.le_refl 1
      · split <;> omega
    omega

/-- No call that control can reach takes more values than a word can count. -/
def NarrowCalls (code : List (Instruction Offset)) (clauses : List Clause)
    (callSites : CallSites) : Prop :=
  ∀ n i token s, Reachable code clauses n → code[n]? = some i → Calls i →
    i.token? = some token → callSites token = .ok s → callTakes i.opcode s < UInt16.size

theorem NarrowCalls.pops_lt (hnarrow : NarrowCalls code clauses callSites) {n : Nat}
    (hn : Reachable code clauses n) (hi : code[n]? = some i)
    (h : Effect callSites returnsValue i pops pushes) : pops < UInt16.size := by
  cases h with
  | table hpops =>
    have hgrowth := i.opcode.growth.1
    rw [hpops] at hgrowth
    exact Nat.lt_trans hgrowth (by decide)
  | ret =>
    rcases returnsValue with - | -
    · decide
    · decide
  | call hcalls htoken hsite => exact hnarrow n i _ _ hn hi hcalls htoken hsite

/-! ### Words that do not wrap -/

section Words

variable {depth : UInt16} (hpops : pops < UInt16.size) (hle : UInt16.ofNat pops ≤ depth)
  (hpushes : pushes ≤ pops + 1)
include hpops hle

/-- Taking values that are there does not wrap. -/
theorem toNat_sub_pops :
    pops ≤ depth.toNat ∧ (depth - .ofNat pops).toNat = depth.toNat - pops := by
  have hnat : (UInt16.ofNat pops).toNat = pops := UInt16.toNat_ofNat_of_lt' hpops
  rw [UInt16.toNat_sub_of_le _ _ hle, hnat]
  rw [UInt16.le_iff_toNat_le, hnat] at hle
  exact ⟨hle, rfl⟩

include hpushes

theorem toNat_effect_le : (depth - .ofNat pops + .ofNat pushes).toNat ≤ depth.toNat + 1 := by
  obtain ⟨hpops', hsub⟩ := toNat_sub_pops hpops hle
  have hmod : (UInt16.ofNat pushes).toNat ≤ pushes := by
    rw [UInt16.toNat_ofNat']
    exact Nat.mod_le _ _
  rw [UInt16.toNat_add, hsub]
  exact Nat.le_trans (Nat.mod_le _ _) (by omega)

/-- Below the largest word, putting one value more does not wrap either. -/
theorem toNat_effect (hdepth : depth.toNat < 0xFFFF) :
    (depth - .ofNat pops + .ofNat pushes).toNat = depth.toNat - pops + pushes := by
  obtain ⟨hpops', hsub⟩ := toNat_sub_pops hpops hle
  have hpushes' : (UInt16.ofNat pushes).toNat = pushes :=
    UInt16.toNat_ofNat_of_lt' (by rw [UInt16.size]; omega)
  rw [UInt16.toNat_add, hsub, hpushes']
  exact Nat.mod_eq_of_lt (by omega)

end Words

/-! ### Depths and instructions -/

section Depth

variable {d : Nat → UInt16} (hcomplete : Complete code clauses callSites)
  (hfits : Fits code clauses returnsValue callSites d)
  (hnarrow : NarrowCalls code clauses callSites)
include hcomplete hfits hnarrow

/-- On its way to a depth control has been at each smaller one. -/
theorem Reachable.exists_smaller {n : Nat} (h : Reachable code clauses n) :
    ∀ depth ≤ (d n).toNat, ∃ m, Reachable code clauses m ∧ (d m).toNat = depth := by
  -- every code starts with an empty stack
  have hzero : ∃ m, Reachable code clauses m ∧ (d m).toNat = 0 := by
    obtain ⟨i, hi⟩ := h.exists_instruction
    have hpos : 0 < code.length := Nat.zero_lt_of_lt (List.getElem?_eq_some_iff.mp hi).1
    exact ⟨0, .entry hpos, by rw [hfits.entry hpos]; rfl⟩
  have hsmall : ∀ {n}, Reachable code clauses n → (d n).toNat ≤ 1 →
      ∀ depth ≤ (d n).toNat, ∃ m, Reachable code clauses m ∧ (d m).toNat = depth := by
    intro n hn hle depth hdepth
    rcases Nat.eq_zero_or_pos depth with rfl | hpos
    · exact hzero
    · exact ⟨n, hn, by omega⟩
  induction h with
  | entry hpos => exact hsmall (.entry hpos) (by rw [hfits.entry hpos]; decide)
  | @handler c n hc hn =>
    refine hsmall (.handler hc hn) ?_
    rw [hfits.handler c hc n hn]
    split <;> decide
  | @filter c f n hc hf hn =>
    refine hsmall (.filter hc hf hn) ?_
    rw [hfits.filter c hc f hf n hn]
    decide
  | @step n i t m hn hi ht hm ih =>
    obtain ⟨pops, pushes, heffect⟩ : ∃ pops pushes, Effect callSites returnsValue i pops pushes :=
      exists_effect (hcomplete.known n i hn hi)
    have hgrows := toNat_effect_le (hnarrow.pops_lt hn hi heffect)
      (hfits.enough n i pops pushes hn hi heffect) heffect.pushes_le
    have hedge := hfits.edge n i pops pushes hn hi heffect t ht m hm
    intro depth hdepth
    by_cases hleave : i.opcode.info.flow = .leave
    · rw [if_pos hleave] at hedge
      exact hsmall (.step hn hi ht hm) (by rw [hedge]; decide) depth hdepth
    · rw [if_neg hleave] at hedge
      rcases Nat.lt_or_ge (d n).toNat depth with hlt | hge
      · -- only the instruction reached last can be as deep
        exact ⟨m, .step hn hi ht hm, by rw [hedge] at hdepth ⊢; omega⟩
      · exact ih depth hge

/-- There are more instructions than values on the stack. -/
theorem depth_lt_length {n : Nat} (h : Reachable code clauses n) : (d n).toNat < code.length := by
  -- the smaller depths, and this one, are depths of as many instructions
  have hsubset : List.range ((d n).toNat + 1) ⊆
      (List.range code.length).map fun m => (d m).toNat := by
    intro depth hdepth
    obtain ⟨m, hm, rfl⟩ := h.exists_smaller hcomplete hfits hnarrow depth
      (Nat.le_of_lt_succ (List.mem_range.mp hdepth))
    obtain ⟨i, hi⟩ := hm.exists_instruction
    exact List.mem_map_of_mem (List.mem_range.mpr (List.getElem?_eq_some_iff.mp hi).1)
  have hlength := (List.subperm_of_subset List.nodup_range hsubset).length_le
  rw [List.length_range, List.length_map, List.length_range] at hlength
  exact hlength

end Depth

/-! ### Depths counted in full -/

/-- Control can arrive at the instruction with the given number with so many values on the
stack, counted in full: none where the method or a finally or fault handler starts, one
where any other handler or a filter does, and after each instruction what its effect makes
of them.  The number may fall below zero, and it has no bound. -/
inductive Arrives (code : List (Instruction Offset)) (clauses : List Clause)
    (returnsValue : Bool) (callSites : CallSites) : Nat → Int → Prop
  | entry : 0 < code.length → Arrives code clauses returnsValue callSites 0 0
  | handler {c n} : c ∈ clauses → StandsAt code n c.handlerOffset →
      Arrives code clauses returnsValue callSites n (if c.isFinallyLike then 0 else 1)
  | filter {c f n} : c ∈ clauses → f ∈ c.filterOffset? → StandsAt code n f →
      Arrives code clauses returnsValue callSites n 1
  | step {n x i pops pushes t m} : Arrives code clauses returnsValue callSites n x →
      code[n]? = some i → Effect callSites returnsValue i pops pushes → t ∈ successors i →
      StandsAt code m t →
      Arrives code clauses returnsValue callSites m
        (if i.opcode.info.flow = .leave then 0 else x - pops + pushes)

theorem Arrives.reachable {n : Nat} {x : Int}
    (h : Arrives code clauses returnsValue callSites n x) : Reachable code clauses n := by
  induction h with
  | entry hpos => exact .entry hpos
  | handler hc hn => exact .handler hc hn
  | filter hc hf hn => exact .filter hc hf hn
  | step _ hi _ ht hm ih => exact .step ih hi ht hm

section Whole

variable {d : Nat → UInt16} (hfits : Fits code clauses returnsValue callSites d)
  (hnarrow : NarrowCalls code clauses callSites)
  (hsmall : ∀ n, Reachable code clauses n → (d n).toNat < 0xFFFF)
include hfits hnarrow hsmall

/-- An instruction that control can reach finds what it takes, and leaves what the words
say. -/
theorem effect_counted {n : Nat} (hn : Reachable code clauses n) (hi : code[n]? = some i)
    (h : Effect callSites returnsValue i pops pushes) :
    pops ≤ (d n).toNat ∧
      ((d n).toNat : Int) - pops + pushes = (d n - .ofNat pops + .ofNat pushes).toNat := by
  have hpops := hnarrow.pops_lt hn hi h
  have henough := hfits.enough n i pops pushes hn hi h
  have hle := (toNat_sub_pops hpops henough).1
  rw [toNat_effect hpops henough h.pushes_le (hsmall n hn)]
  exact ⟨hle, by omega⟩

/-- The depth counted in full is the one that the check has found. -/
theorem Arrives.depth_eq {n : Nat} {x : Int}
    (h : Arrives code clauses returnsValue callSites n x) : x = (d n).toNat := by
  induction h with
  | entry hpos =>
    rw [hfits.entry hpos]
    rfl
  | @handler c n hc hn =>
    rw [hfits.handler c hc n hn]
    split <;> rfl
  | @filter c f n hc hf hn =>
    rw [hfits.filter c hc f hf n hn]
    rfl
  | @step n x i pops pushes t m hx hi heffect ht hm ih =>
    rw [hfits.edge n i pops pushes hx.reachable hi heffect t ht m hm]
    split
    · rfl
    · rw [ih]
      exact (effect_counted hfits hnarrow hsmall hx.reachable hi heffect).2

end Whole

/-- The bounds that the check accepts are bounds for the depth counted in full, along every
way that control can take, if no call takes more values than a word can count and either
the declared bound or the number of instructions keeps the depth below the largest word:
no instruction takes what is not there, and no depth exceeds the declared one. -/
theorem stack_bounds {data bytes : List UInt8} {body : MethodBody}
    {code : List (Instruction Offset)} {report : StackReport}
    (hread : MethodBody.read data = .ok body) (hbytes : body.code data = .ok bytes)
    (hdecode : decode bytes = .ok code)
    (h : checkBody data returnsValue (some callSites) = .ok (some report))
    (hnarrow : NarrowCalls code body.clauses callSites)
    (hsmall : body.maxStack < 0xFFFF ∨ code.length ≤ 0xFFFF) :
    ∀ n x, Arrives code body.clauses returnsValue callSites n x →
      0 ≤ x ∧ x ≤ body.maxStack.toNat ∧ ∀ i pops pushes, code[n]? = some i →
        Effect callSites returnsValue i pops pushes →
          pops ≤ x ∧ x - pops + pushes ≤ body.maxStack.toNat := by
  obtain ⟨body', bytes', code', hread', hbytes', hdecode', -, hwalked, hle⟩ :=
    checkBody_some_eq_ok.mp h
  obtain rfl := Except.ok.inj (hread.symm.trans hread')
  obtain rfl := Except.ok.inj (hbytes.symm.trans hbytes')
  obtain rfl := Except.ok.inj (hdecode.symm.trans hdecode')
  -- the check has found depths that fit, and none of them is the largest word
  have hdistinct := nodup_offsets (decode_eq_ok_iff.mp hdecode).2.2
  obtain ⟨hcomplete, d, hfits⟩ := solved_of_simulateStack hdistinct hwalked
  have htells := tells_of_simulateStack hdistinct hwalked hfits
  have hwords : ∀ n, Reachable code body.clauses n → (d n).toNat < 0xFFFF := by
    intro n hn
    rcases hsmall with hdeclared | hlength
    · have hbound := UInt16.le_trans (htells.before n hn) hle
      rw [UInt16.le_iff_toNat_le] at hbound
      exact Nat.lt_of_le_of_lt hbound (UInt16.lt_iff_toNat_lt.mp hdeclared)
    · exact Nat.lt_of_lt_of_le (depth_lt_length hcomplete hfits hnarrow hn) hlength
  intro n x hx
  have hn := hx.reachable
  obtain rfl := hx.depth_eq hfits hnarrow hwords
  refine ⟨Int.natCast_nonneg _, ?_, ?_⟩
  · have hbound := UInt16.le_trans (htells.before n hn) hle
    exact Int.ofNat_le.mpr (UInt16.le_iff_toNat_le.mp hbound)
  · intro i pops pushes hi heffect
    obtain ⟨hpops, hafter⟩ := effect_counted hfits hnarrow hwords hn hi heffect
    have hbound := UInt16.le_trans (htells.after n i pops pushes hn hi heffect) hle
    rw [hafter]
    exact ⟨Int.ofNat_le.mpr hpops, Int.ofNat_le.mpr (UInt16.le_iff_toNat_le.mp hbound)⟩

/-! ### A body that calls -/

/-- What the table says of the instruction that loads zero, which stands for any that puts
one value. -/
theorem info_load : (Opcode.mk 0x16).info.flow = .sequential ∧
    (Opcode.mk 0x16).info.pops = .slots 0 ∧ (Opcode.mk 0x16).info.pushes = .slots 1 ∧
    (Opcode.mk 0x16).size + (Opcode.mk 0x16).info.operand.size = 1 := by
  decide

/-- A body that calls something with two constants and returns. -/
def callBody : List UInt8 := [0x22, 0x16, 0x16, 0x28, 0x01, 0x00, 0x00, 0x0A, 0x2A]

def callHeader : MethodBody := ⟨8, 1, ⟨0⟩, 8, false, false, []⟩

def callCode : List (Instruction Offset) :=
  [⟨0, ⟨0x16⟩, .none⟩, ⟨1, ⟨0x16⟩, .none⟩, ⟨2, Opcode.call, .token ⟨0x0A000001⟩⟩,
    ⟨7, Opcode.ret, .none⟩]

/-- The signature of a static method that takes so many integers and returns nothing. -/
def taking (count : Nat) : MethodSig :=
  .static (.primitive .void) (List.replicate count (.primitive .i4))

/-- Whatever is called has this signature. -/
def callsTaking (count : Nat) : CallSites := fun _ => .ok (taking count)

theorem callTakes_taking (op : Opcode) (count : Nat) :
    callTakes op (taking count) = if op = Opcode.calli then count + 1 else count := by
  have harity : (taking count).arity = count := by
    simp [taking, MethodSig.static, MethodSig.arity, TypeSig.countParams, List.countP_replicate,
      TypeSig.isSentinel]
  have hpops : (taking count).stackPops = count := by
    have hthis : (taking count).hasThis = false := by
      simp [taking, MethodSig.static, MethodSig.hasThis, MethodSig.hasMark]
    rw [MethodSig.stackPops, harity, hthis]
    rfl
  unfold callTakes
  rw [harity, hpops]
  by_cases hnew : op = Opcode.newobj
  · rw [if_pos hnew, if_neg (by rw [hnew]; decide)]
  · rw [if_neg hnew]

theorem callGives_taking (op : Opcode) (count : Nat) :
    callGives op (taking count) = if op = Opcode.newobj then 1 else 0 := rfl

theorem narrowCalls_callsTaking {count : Nat} (hcount : count + 1 < UInt16.size) :
    NarrowCalls code clauses (callsTaking count) := by
  intro n i token s _ _ _ _ hsite
  obtain rfl := Except.ok.inj hsite
  rw [callTakes_taking]
  split <;> omega

/-- Whatever it takes, control comes to the call with two values. -/
theorem arrives_callCode (count : Nat) : Arrives callCode [] false (callsTaking count) 2 2 := by
  have hload : ∀ offset, Effect (callsTaking count) false ⟨offset, ⟨0x16⟩, .none⟩ 0 1 :=
    fun _ => .table info_load.2.1 info_load.2.2.1
  have h₀ : Arrives callCode [] false (callsTaking count) 0 0 := .entry (by decide)
  have h₁ : Arrives callCode [] false (callsTaking count) 1 1 :=
    .step h₀ rfl (hload 0) (by decide) ⟨_, rfl, rfl⟩
  exact .step h₁ rfl (hload 1) (by decide) ⟨_, rfl, rfl⟩

theorem stack_bounds_callBody :
    MethodBody.read callBody = .ok callHeader ∧
      checkBody callBody false (some (callsTaking 2)) =
        .ok (some ⟨[(0, 0), (1, 1), (2, 2), (7, 0)], 2⟩) ∧
      Arrives callCode [] false (callsTaking 2) 2 2 ∧
      ∀ n x, Arrives callCode [] false (callsTaking 2) n x → 0 ≤ x ∧ x ≤ 8 := by
  have hread : MethodBody.read callBody = .ok callHeader := rfl
  have hbytes : callHeader.code callBody = .ok (callBody.drop 1) := rfl
  have hdecode : decode (callBody.drop 1) = .ok callCode := rfl
  have hcheck : checkBody callBody false (some (callsTaking 2)) =
      .ok (some ⟨[(0, 0), (1, 1), (2, 2), (7, 0)], 2⟩) := by cbv
  refine ⟨hread, hcheck, arrives_callCode 2, fun n x hx => ?_⟩
  obtain ⟨hlow, hhigh, -⟩ := stack_bounds hread hbytes hdecode hcheck
    (narrowCalls_callsTaking (by decide)) (.inl (by decide)) n x hx
  exact ⟨hlow, hhigh⟩

/-! ### Calls that wrap -/

/-- What is called matters to the check only as far as words can tell. -/
theorem simulateStack_congr_effects {callSites' : CallSites}
    (h : ∀ i, stackEffect callSites returnsValue i = stackEffect callSites' returnsValue i) :
    simulateStack code clauses returnsValue callSites =
      simulateStack code clauses returnsValue callSites' := by
  -- signatures are only asked for where an instruction is passed
  have hpass : ∀ w i depth, Walk.pass (.of code clauses returnsValue callSites) w i depth =
      Walk.pass (.of code clauses returnsValue callSites') w i depth := by
    intro w i depth
    unfold Walk.pass
    show (_ >>= fun _ => stackEffect callSites returnsValue i >>= _) = _
    rw [h]
    rfl
  have hrun : ∀ count w, Walk.run (.of code clauses returnsValue callSites) count w =
      Walk.run (.of code clauses returnsValue callSites') count w := by
    intro count
    induction count with
    | zero => exact fun _ => rfl
    | succ count ih =>
      intro w
      unfold Walk.run
      simp only [hpass, ih]
      rfl
  show (Walk.enterAll (.of code clauses returnsValue callSites) >>= fun w =>
    Walk.run (.of code clauses returnsValue callSites) code.length w >>= _) = _
  simp only [hrun]
  rfl

theorem ofNat_add_size (n : Nat) : UInt16.ofNat (n + UInt16.size) = UInt16.ofNat n := by
  apply UInt16.toNat_inj.mp
  rw [UInt16.toNat_ofNat', UInt16.toNat_ofNat']
  exact Nat.add_mod_right n _

/-- To the check, a call that takes 65536 values more takes no more. -/
theorem simulateStack_callsTaking_add (count : Nat) :
    simulateStack code clauses returnsValue (callsTaking (count + UInt16.size)) =
      simulateStack code clauses returnsValue (callsTaking count) := by
  have heffect : ∀ op, callEffect op (taking (count + UInt16.size)) =
      callEffect op (taking count) := by
    intro op
    rw [callEffect_eq, callEffect_eq, callTakes_taking, callTakes_taking, callGives_taking,
      callGives_taking]
    split
    · rw [Nat.add_right_comm, ofNat_add_size]
    · rw [ofNat_add_size]
  apply simulateStack_congr_effects
  intro i
  unfold stackEffect
  split
  · rfl
  · split
    · rfl
    · unfold calledSignature
      rcases i.token? with - | token
      · rfl
      · exact congrArg Except.ok (heffect i.opcode)

/-- The same for the check of a whole body. -/
theorem checkBody_callsTaking_add (data : List UInt8) (count : Nat) :
    checkBody data returnsValue (some (callsTaking (count + UInt16.size))) =
      checkBody data returnsValue (some (callsTaking count)) := by
  unfold checkBody
  simp only [simulateStack_callsTaking_add]

/-- The check accepts a call that takes 65538 values where there are two.  Counted in full,
control leaves it with 65536 values fewer than none. -/
theorem wideCall_accepted :
    MethodBody.read callBody = .ok callHeader ∧ callHeader.code callBody = .ok (callBody.drop 1) ∧
      decode (callBody.drop 1) = .ok callCode ∧
      checkBody callBody false (some (callsTaking 65538)) =
        .ok (some ⟨[(0, 0), (1, 1), (2, 2), (7, 0)], 2⟩) ∧
      Arrives callCode [] false (callsTaking 65538) 3 (-65536) := by
  refine ⟨rfl, rfl, rfl, ?_, ?_⟩
  · rw [show 65538 = 2 + UInt16.size from rfl, checkBody_callsTaking_add]
    cbv
  · have htakes : callTakes Opcode.call (taking 65538) = 65538 := by
      rw [callTakes_taking, if_neg (by decide)]
    have hcall : Effect (callsTaking 65538) false ⟨2, Opcode.call, .token ⟨0x0A000001⟩⟩
        (callTakes Opcode.call (taking 65538)) 0 :=
      .call (s := taking 65538) ⟨.inl (by decide), by decide⟩ rfl rfl
    rw [htakes] at hcall
    exact .step (arrives_callCode 65538) rfl hcall (by decide) ⟨_, rfl, rfl⟩

/-! ### Depths that wrap -/

/-- Code that loads so many constants and returns. -/
def loads (count : Nat) : List (Instruction Offset) :=
  (List.range count).map (fun n => ⟨.ofNat n, ⟨0x16⟩, .none⟩) ++ [⟨.ofNat count, Opcode.ret, .none⟩]

section Loads

variable {count n : Nat}

theorem getElem?_loads (hn : n < count) :
    (loads count)[n]? = some ⟨.ofNat n, ⟨0x16⟩, .none⟩ := by
  unfold loads
  rw [List.getElem?_append_left (by simpa using hn)]
  simp [hn]

theorem getElem?_loads_count : (loads count)[count]? = some ⟨.ofNat count, Opcode.ret, .none⟩ := by
  unfold loads
  rw [List.getElem?_append_right (by simp)]
  simp

theorem mem_loads (h : i ∈ loads count) :
    (∃ n < count, i = ⟨.ofNat n, ⟨0x16⟩, .none⟩) ∨ i = ⟨.ofNat count, Opcode.ret, .none⟩ := by
  simp only [loads, List.mem_append, List.mem_map, List.mem_range, List.mem_singleton] at h
  rcases h with ⟨n, hn, rfl⟩ | rfl
  · exact .inl ⟨n, hn, rfl⟩
  · exact .inr rfl

theorem standsAt_loads (hn : n ≤ count) : StandsAt (loads count) n (.ofNat n) := by
  rcases Nat.lt_or_eq_of_le hn with hlt | rfl
  · exact ⟨_, getElem?_loads hlt, rfl⟩
  · exact ⟨_, getElem?_loads_count, rfl⟩

variable (hcount : count < Offset.last)
include hcount

theorem toNat_load (hn : n ≤ count) : (UInt32.ofNat n).toNat = n :=
  UInt32.toNat_ofNat_of_lt' (Nat.lt_trans (Nat.lt_of_le_of_lt hn hcount) (by decide))

theorem successors_load (hn : n < count) :
    successors ⟨.ofNat n, ⟨0x16⟩, .none⟩ = [.ofNat (n + 1)] := by
  have hnext : Instruction.nextOffset (τ := Offset) ⟨.ofNat n, ⟨0x16⟩, .none⟩ = .ofNat (n + 1) := by
    apply UInt32.toNat_inj.mp
    rw [Instruction.nextOffset, Offset.toNat_after, toNat_load hcount (Nat.le_of_lt hn),
      toNat_load hcount hn]
    show min (n + (_ + _) % 0x100000000) Offset.last = n + 1
    rw [info_load.2.2.2]
    omega
  unfold successors
  simp only [info_load.1, hnext]

theorem nodup_loads : ((loads count).map Instruction.offset).Nodup := by
  have hmap : (loads count).map Instruction.offset = (List.range (count + 1)).map UInt32.ofNat := by
    simp [loads, List.range_succ]
  rw [hmap, List.Nodup, List.pairwise_map]
  refine List.pairwise_lt_range.imp_of_mem fun {m n} hm hn hlt heq => ?_
  have heq := congrArg UInt32.toNat heq
  rw [toNat_load hcount (Nat.le_of_lt_succ (List.mem_range.mp hm)),
    toNat_load hcount (Nat.le_of_lt_succ (List.mem_range.mp hn))] at heq
  omega

/-- Control comes to the return with all that was loaded. -/
theorem arrives_loads (hn : n ≤ count) : Arrives (loads count) [] returnsValue callSites n n := by
  induction n with
  | zero => exact .entry (by simp [loads])
  | succ n ih =>
    have hstep := Arrives.step (ih (Nat.le_of_lt hn)) (getElem?_loads hn)
      (.table info_load.2.1 info_load.2.2.1) (by rw [successors_load hcount hn]; simp)
      (standsAt_loads hn)
    rw [info_load.1, if_neg (by decide)] at hstep
    have hsum : (n : Int) - (0 : Nat) + (1 : Nat) = (n + 1 : Nat) := by omega
    exact hsum ▸ hstep

/-- The words for the numbers of values, where the last of them is zero. -/
theorem closed_loads (hwraps : count % UInt16.size = 0) (callSites : CallSites) :
    Closed (.of (loads count) [] false callSites)
      fun offset depth => depth = .ofNat offset.toNat := by
  constructor
  case start =>
    intro i hi
    obtain ⟨j, hj, hoffset⟩ := standsAt_loads (Nat.zero_le count)
    obtain rfl := Option.some.inj (hi.symm.trans ((Ground.getElem?_code ..).trans hj))
    rw [hoffset]
    rfl
  case handler =>
    intro c hc
    cases hc
  case filter =>
    intro c hc
    cases hc
  case step =>
    rintro i hi depth rfl
    rcases mem_loads (Ground.mem_code.mp hi) with ⟨n, hn, rfl⟩ | rfl
    · have heffect : stackEffect callSites false ⟨.ofNat n, ⟨0x16⟩, .none⟩ = .ok ⟨0, 1⟩ :=
        stackEffect_eq_ok_iff.mpr ⟨0, 1, .table info_load.2.1 info_load.2.2.1, rfl⟩
      refine ⟨_, ⟨.inr fun _ hc => (by cases hc), ⟨_, heffect, UInt16.zero_le, rfl⟩, ?_⟩, ?_⟩
      · intro hflow
        rw [info_load.1] at hflow
        cases hflow
      · intro t ht
        rw [successors_load hcount hn, List.mem_singleton] at ht
        obtain rfl := ht
        obtain ⟨j, hj, hoffset⟩ := standsAt_loads (Nat.succ_le_of_lt hn)
        refine ⟨⟨j, Ground.mem_code.mpr (List.mem_of_getElem? hj), hoffset⟩, ?_⟩
        rw [toNat_load hcount (Nat.le_of_lt hn), toNat_load hcount hn, depthAfter, info_load.1,
          if_neg (by decide), UInt16.sub_zero]
        exact (UInt16.ofNat_add n 1).symm
    · -- at the return the depth has gone round, and is zero as it has to be there
      have hzero : UInt16.ofNat count = 0 := by
        apply UInt16.toNat_inj.mp
        rw [UInt16.toNat_ofNat']
        exact hwraps
      rw [toNat_load hcount (Nat.le_refl _), hzero]
      have heffect : stackEffect callSites false ⟨.ofNat count, Opcode.ret, .none⟩ = .ok ⟨0, 0⟩ :=
        stackEffect_eq_ok_iff.mpr ⟨_, _, .ret rfl, rfl⟩
      refine ⟨0, ⟨.inl rfl, ⟨_, heffect, UInt16.zero_le, rfl⟩, fun _ => rfl⟩, ?_⟩
      intro t ht
      have hflow : Opcode.ret.info.flow = .ret := by decide
      simp only [successors, hflow, List.not_mem_nil] at ht

end Loads

/-- The check accepts code that loads 65536 values, or some multiple of that, and returns
with all of them on the stack: the last load makes the largest word zero. -/
theorem loads_accepted {count : Nat} (hcount : count < Offset.last)
    (hwraps : count % UInt16.size = 0) (callSites : CallSites) :
    (∃ report, simulateStack (loads count) [] false callSites = .ok report) ∧
      Arrives (loads count) [] false callSites count count := by
  obtain ⟨report, hreport, -⟩ := simulateStack_within (nodup_loads hcount)
    (closed_loads hcount hwraps callSites) (fun _ _ _ h h' => h.trans h'.symm)
    (fun _ _ _ _ _ _ => ⟨le_lastWord _, le_lastWord _⟩)
  exact ⟨⟨report, hreport⟩, arrives_loads hcount (Nat.le_refl _)⟩

end Check

end CilProbe
