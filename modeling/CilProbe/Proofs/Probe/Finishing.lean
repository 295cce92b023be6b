/-
CilProbe/Proofs/Probe/Finishing.lean

Drafts that can be written.  What the code of a draft says is what the probes say and what
becomes of the instructions of the method (`Shape.map_actOf`).  So it has the branches of the
method and a leave for each return (`countP_images`), it takes up to fifteen bytes for each one
of the method and some for the probes (`room_images`), and every label in it or in a clause
stands for a node of the code or for its end.

What takes less than 2^31 bytes with some of its branches long has only displacements that fit;
with enough passes it is laid out, and a table that is not too long goes behind it
(`exists_finish_of_valid`).  Code of less than 2^27 bytes does so even when all its branches are
long (`exists_finish`).
-/
import CilProbe.Proofs.Code.Completion
import CilProbe.Proofs.Probe.Relocated

namespace CilProbe

/-! ### What the probes say -/

/-- It goes nowhere but on. -/
structure Act.Plain {τ : Type} (a : Act τ) : Prop where
  isBranch : a.opcode.isBranch = false
  targets : a.operand.targets = []

section Added

variable {τ : Type}

theorem Act.plain_storeLocal (slot : UInt16) :
    (Instruction.storeLocal slot : Instruction τ).act.Plain := by
  obtain ⟨kind, hmoves, -, htargets⟩ := Instruction.storeLocal_cases (τ := τ) slot
  exact ⟨(Opcode.isBranch_longForm _).trans hmoves.2.2.2.2.2, htargets⟩

theorem Act.plain_loadLocal (slot : UInt16) :
    (Instruction.loadLocal slot : Instruction τ).act.Plain := by
  obtain ⟨kind, hmoves, -, htargets⟩ := Instruction.loadLocal_cases (τ := τ) slot
  exact ⟨(Opcode.isBranch_longForm _).trans hmoves.2.2.2.2.2, htargets⟩

theorem OperandKind.size_le (kind : OperandKind) : kind.size ≤ 8 := by
  cases kind <;> decide

theorem Opcode.size_bounds (op : Opcode) : 1 ≤ op.size ∧ op.size ≤ 2 := by
  unfold size
  split <;> decide

/-- The longest operand that has no targets is a number of eight bytes. -/
theorem Act.Plain.room_le {a : Act τ} (h : a.Plain) : a.room ≤ 10 := by
  have hop := a.opcode.size_bounds.2
  have hkind := a.opcode.info.operand.size_le
  rw [room, if_neg (by rw [h.isBranch]; decide)]
  have hwidth : a.operand.width a.opcode.info.operand ≤ 8 := by
    have htargets := h.targets
    cases hoperand : a.operand with
    | switch ts =>
      -- a jump table that goes nowhere is its count and no more
      rw [hoperand] at htargets
      obtain rfl : ts = [] := htargets
      exact Nat.le_of_lt (by decide : 4 + 4 * 0 < 8)
    | _ => exact hkind
  omega

theorem sum_room_le {acts : List (Act τ)} (h : ∀ a ∈ acts, a.Plain) :
    (acts.map Act.room).sum ≤ 10 * acts.length := by
  induction acts with
  | nil => exact Nat.zero_le _
  | cons a acts ih =>
    obtain ⟨ha, hacts⟩ := List.forall_mem_cons.mp h
    have hroom := ha.room_le
    have hmore := ih hacts
    rw [List.map_cons, List.sum_cons, List.length_cons]
    omega

theorem countP_isBranch_eq_zero {acts : List (Act τ)} (h : ∀ a ∈ acts, a.Plain) :
    acts.countP (fun a => a.opcode.isBranch) = 0 := by
  rw [List.countP_eq_zero]
  exact fun a ha => by rw [(h a ha).isBranch]; decide

theorem plain_entryActs (method enter : Token) (answerSlot : UInt16) :
    ∀ a ∈ (entryActs method enter answerSlot : List (Act τ)), a.Plain := by
  simp only [entryActs, List.forall_mem_cons]
  exact ⟨⟨rfl, rfl⟩, ⟨rfl, rfl⟩, Act.plain_storeLocal answerSlot, by simp⟩

/-- What the exit probe has behind the code of the method. -/
def tailActs (plan : Option ExitPlan) (answerSlot : UInt16) : List (Act τ) :=
  plan.elim [] fun p => p.catchActs ++ p.finallyActs answerSlot ++ p.epilogueActs

theorem plain_tailActs (plan : Option ExitPlan) (answerSlot : UInt16) :
    ∀ a ∈ (tailActs plan answerSlot : List (Act τ)), a.Plain := by
  rcases plan with - | p
  · simp [tailActs]
  have hload : ∀ a ∈ (p.slots.value.map fun slot => (Instruction.loadLocal slot).act).toList,
      (a : Act τ).Plain := by
    rcases p.slots.value with - | slot
    · simp
    · simpa using Act.plain_loadLocal slot
  have hcatch : ∀ a ∈ p.catchActs, (a : Act τ).Plain := by
    unfold ExitPlan.catchActs
    split
    · simp only [List.forall_mem_cons]
      exact ⟨Act.plain_storeLocal _, ⟨rfl, rfl⟩, by simp⟩
    · simp
  simp only [tailActs, Option.elim_some, ExitPlan.finallyActs, ExitPlan.epilogueActs,
    List.forall_mem_append, List.forall_mem_cons]
  exact ⟨⟨hcatch, hload, Act.plain_loadLocal _, Act.plain_loadLocal _, ⟨rfl, rfl⟩,
    ⟨rfl, rfl⟩, by simp⟩, hload, ⟨rfl, rfl⟩, by simp⟩

theorem length_tailActs_le (plan : Option ExitPlan) (answerSlot : UInt16) :
    (tailActs plan answerSlot : List (Act τ)).length ≤ 9 := by
  rcases plan with - | p
  · exact Nat.zero_le _
  have hcatch : (p.catchActs : List (Act τ)).length ≤ 2 := by
    unfold ExitPlan.catchActs
    split
    · exact Nat.le_refl _
    · exact Nat.zero_le _
  have hload : (p.slots.value.map fun slot =>
      (Instruction.loadLocal slot : Instruction τ).act).toList.length ≤ 1 := by
    rcases p.slots.value with - | slot
    · exact Nat.zero_le _
    · exact Nat.le_refl _
  simp only [tailActs, Option.elim_some, ExitPlan.finallyActs, ExitPlan.epilogueActs,
    List.length_append, List.length_cons, List.length_nil]
  omega

end Added

/-! ### What becomes of the method -/

section Images

variable {τ : Type} (plan : Option ExitPlan) (move : Offset → τ) (epilogue : τ)

/-- What becomes of an instruction has one branch if it is one itself, or if it returns. -/
theorem countP_imageActs (i : Instruction Offset) :
    (imageActs plan move epilogue i).countP (fun a => a.opcode.isBranch) =
      i.opcode.isBranch.toNat + if plan.isSome ∧ i.opcode = Opcode.ret then 1 else 0 := by
  have hkept : [i.act.map move].countP (fun a => a.opcode.isBranch) = i.opcode.isBranch.toNat := by
    rw [List.countP_singleton, show (i.act.map move).opcode.isBranch = i.opcode.isBranch from
      Opcode.isBranch_longForm i.opcode]
    rcases i.opcode.isBranch <;> rfl
  unfold imageActs
  rcases plan with - | p
  · simpa using hkept
  · by_cases hret : i.opcode = Opcode.ret
    · -- the value is stored without a branch, then comes the leave
      have hstore : ((p.slots.value.map fun slot =>
          (Instruction.storeLocal slot : Instruction τ).act).toList).countP
            (fun a => a.opcode.isBranch) = 0 := by
        rcases p.slots.value with - | slot
        · rfl
        · exact countP_isBranch_eq_zero (by simpa using Act.plain_storeLocal slot)
      simp only [if_pos hret, ExitPlan.returnActs, List.countP_append, hstore, Nat.zero_add]
      rw [hret]
      rfl
    · simpa [hret] using hkept

/-- The branches are those of the method, and one leave for each return. -/
theorem countP_images (code : List (Instruction Offset)) :
    (code.flatMap (imageActs plan move epilogue)).countP (fun a => a.opcode.isBranch) =
      (code.countP fun i => i.opcode.isBranch) +
        if plan.isSome then code.countP fun i => i.opcode = Opcode.ret else 0 := by
  induction code with
  | nil => simp
  | cons i code ih =>
    rw [List.flatMap_cons, List.countP_append, ih, countP_imageActs, List.countP_cons,
      List.countP_cons]
    rcases hplan : plan.isSome <;> rcases hbranch : i.opcode.isBranch <;>
      by_cases hret : i.opcode = Opcode.ret <;> simp [hret] <;> omega

/-- There is room for what becomes of an instruction in fifteen times its bytes. -/
theorem room_imageActs (i : Instruction Offset) :
    ((imageActs plan move epilogue i).map Act.room).sum ≤ 15 * i.size := by
  have hsize : 1 ≤ i.size := Nat.le_trans i.opcode.size_bounds.1 (Nat.le_add_right _ _)
  rcases imageActs_cases plan move epilogue i with himage | ⟨p, rfl, -, himage⟩
  · -- only a branch can become longer, and then to five bytes
    rw [himage, List.map_singleton, List.sum_singleton, Act.room_map]
    by_cases hb : i.opcode.isBranch = true
    · rw [Act.room, Instruction.act, Opcode.isBranch_longForm, if_pos hb]
      omega
    · rw [Instruction.room_act hb]
      omega
  · -- a return becomes a leave of five bytes, and a store of ten at most in front of it
    have hleave : (⟨Opcode.leave, .target epilogue⟩ : Act τ).room = 5 :=
      if_pos (by rfl)
    rw [himage, ExitPlan.returnActs, List.map_append, List.sum_append, List.map_singleton,
      List.sum_singleton, hleave]
    rcases p.slots.value with - | slot
    · simp only [Option.map_none, Option.toList_none, List.map_nil, List.sum_nil]
      omega
    · have hstore := (Act.plain_storeLocal (τ := τ) slot).room_le
      simp only [Option.map_some, Option.toList_some, List.map_singleton, List.sum_singleton]
      omega

/-- So there is for what becomes of the code. -/
theorem room_images (start : Nat) (code : List (Instruction Offset)) :
    ((code.flatMap (imageActs plan move epilogue)).map Act.room).sum + 15 * start ≤
      15 * codeEnd start code := by
  induction code generalizing start with
  | nil => simp [codeEnd]
  | cons i code ih =>
    rw [List.flatMap_cons, List.map_append, List.sum_append, codeEnd]
    have hi := room_imageActs plan move epilogue i
    have hcode := ih (start + i.size)
    omega

end Images

namespace Draft

/-- A label that stands for this has a position. -/
def InCode (l : Listing) (b : Binding) : Prop := b = .atEnd ∨ ∃ id ∈ l.order, b = .node id

/-- The ends of the ranges of a clause have positions. -/
structure BoundClause.InCode (l : Listing) (c : BoundClause) : Prop where
  tryStart : Draft.InCode l c.tryStart
  tryEnd : Draft.InCode l c.tryEnd
  handlerStart : Draft.InCode l c.handlerStart
  handlerEnd : Draft.InCode l c.handlerEnd

namespace Shape

variable {body : MethodBody} {code : List (Instruction Offset)} {size : Offset}
  {method enter : Token} {plan : Option ExitPlan} {d : Draft} {p : Parts}
  (h : Shape body code size method enter plan d p)
include h

/-! ### What the code of a draft says -/

/-- It is what the probes say, and what becomes of the instructions of the method. -/
theorem map_actOf : d.whole.order.map d.whole.actOf =
    (entryActs method enter d.answerSlot ++
      (code.flatMap (imageActs plan (moveTo code) p.epilogueStart) ++
        tailActs plan d.answerSlot)).map some := by
  have hgroups : p.groups.map (List.map d.listing.actOf) =
      code.map fun i => (imageActs plan (moveTo code) p.epilogueStart i).map some := by
    refine List.ext_getElem (by simp [h.count]) fun k hk hk' => ?_
    rw [List.length_map] at hk hk'
    obtain ⟨rest, hgroup, hacts, -⟩ := h.group k code[k] (List.getElem?_eq_getElem hk')
    obtain ⟨_, hget⟩ := List.getElem?_eq_some_iff.mp hgroup
    rw [List.getElem_map, List.getElem_map, hget, hacts]
  have hflatten : p.groups.flatten.map d.listing.actOf =
      (code.flatMap (imageActs plan (moveTo code) p.epilogueStart)).map some := by
    rw [List.map_flatten, hgroups, List.map_flatMap, List.flatMap_def]
  have htail : p.tail.map d.listing.actOf = (tailActs plan d.answerSlot).map some := by
    rw [Parts.tail, List.map_append, List.map_append, h.catch_acts, h.finally_acts,
      h.epilogue_acts]
    rcases plan with - | q
    · rfl
    · simp [tailActs]
  rw [h.whole_order, Parts.order, List.map_append, List.map_append, List.map_append,
    List.map_append, ← hflatten, ← htail, ← h.entry_acts]
  rfl

omit h in
/-- With an entry probe only, what becomes of each instruction is one node. -/
theorem order_eq_range (h : Shape body code size method enter none d p) :
    p.order = List.range code.length := by
  have hgroups : p.groups = (List.range code.length).map ([·]) := by
    refine List.ext_getElem (by simp [h.count]) fun k hk hk' => ?_
    rw [h.count] at hk
    obtain ⟨rest, hgroup, hacts, -⟩ := h.group k code[k] (List.getElem?_eq_getElem hk)
    obtain ⟨_, hget⟩ := List.getElem?_eq_some_iff.mp hgroup
    have hrest : rest = [] := by
      have hlength := congrArg List.length hacts
      simpa [imageActs] using hlength
    rw [hget, hrest, List.getElem_map, List.getElem_range]
  have htail : p.tail = [] := by
    rw [Parts.tail, List.map_eq_nil_iff.mp h.catch_acts, List.map_eq_nil_iff.mp h.finally_acts,
      List.map_eq_nil_iff.mp h.epilogue_acts]
    rfl
  rw [Parts.order, hgroups, htail, List.append_nil, ← List.flatMap_def]
  exact List.flatMap_singleton' _

omit h in
/-- It says what the instruction says. -/
theorem actOf_instruction (h : Shape body code size method enter none d p) {k : NodeId}
    {i : Instruction Offset} (hi : code[k]? = some i) :
    d.whole.actOf k = some (i.act.map (moveTo code)) := by
  obtain ⟨rest, -, hacts, -⟩ := h.group k i hi
  exact (List.cons.inj hacts).1

theorem exists_node {id : NodeId} (hid : id ∈ d.whole.order) :
    ∃ n, d.whole.nodes[id]? = some n := by
  obtain ⟨n, hn, -⟩ := Listing.exists_of_map_actOf h.map_actOf hid
  exact ⟨n, hn⟩

/-- The branches of the draft are those of the method, and at most one for each return. -/
theorem card_branches_le : d.whole.branches.card ≤
    (code.countP fun i => i.opcode.isBranch) +
      if plan.isSome then code.countP fun i => i.opcode = Opcode.ret else 0 := by
  refine Nat.le_trans (Listing.card_branches_le h.map_actOf) (Nat.le_of_eq ?_)
  rw [List.countP_append, List.countP_append, countP_images,
    countP_isBranch_eq_zero (plain_entryActs method enter d.answerSlot),
    countP_isBranch_eq_zero (plain_tailActs plan d.answerSlot), Nat.zero_add, Nat.add_zero]

/-- All nodes take up to fifteen bytes for each one of the method, and some for the probes. -/
theorem extent_le (S : Finset NodeId) :
    d.whole.extent S d.whole.order ≤ 15 * codeEnd 0 code + 120 := by
  refine Nat.le_trans (Listing.extent_le_of_acts h.map_actOf S) ?_
  rw [List.map_append, List.map_append, List.sum_append, List.sum_append]
  have hentry := sum_room_le (plain_entryActs (τ := Binding) method enter d.answerSlot)
  have htail := sum_room_le (plain_tailActs (τ := Binding) plan d.answerSlot)
  have himages := room_images plan (moveTo code) p.epilogueStart 0 code
  have hlength : (entryActs method enter d.answerSlot : List (Act Binding)).length = 3 := rfl
  have hlength' := length_tailActs_le (τ := Binding) plan d.answerSlot
  omega

/-- There are no more clauses than those of the method and two. -/
theorem length_clauses_le : d.clauses.length ≤ body.clauses.length + 2 := by
  have hlength := congrArg List.length h.clauses
  have hexit : (plan.elim [] fun q => exitBound q.exceptionType (.node 0) p).length ≤ 2 := by
    rcases plan with - | q
    · exact Nat.zero_le _
    · rw [Option.elim_some, exitBound]
      rcases q.exceptionType with - | type
      · exact Nat.le_succ 1
      · exact Nat.le_refl 2
  rw [List.length_map, List.length_append, List.length_map] at hlength
  omega

/-! ### Where its labels are -/

theorem inCode_of_mem {id : NodeId} (hid : id ∈ p.order) : InCode d.whole (.node id) := by
  refine .inr ⟨id, ?_, rfl⟩
  rw [h.whole_order]
  exact List.mem_append_right _ hid

theorem inCode_node {k : NodeId} {i : Instruction Offset} (hi : code[k]? = some i) :
    InCode d.whole (.node k) := by
  obtain ⟨rest, hgroup, -⟩ := h.group k i hi
  refine h.inCode_of_mem (List.mem_append_left _ (List.mem_flatten.mpr ⟨k :: rest, ?_, ?_⟩))
  · exact List.mem_of_getElem? hgroup
  · exact List.mem_cons_self

theorem inCode_behind : InCode d.whole p.behind := by
  unfold Parts.behind
  rcases htail : p.tail with - | ⟨id, tail⟩
  · exact .inl rfl
  · refine h.inCode_of_mem (List.mem_append_right _ ?_)
    rw [htail]
    exact List.mem_cons_self

theorem inCode_finallyStart (hplan : plan.isSome) : InCode d.whole p.finallyStart := by
  obtain ⟨id, rest, hfinally⟩ := List.exists_cons_of_ne_nil (h.tail_ne_nil hplan).1
  unfold Parts.finallyStart
  rw [hfinally]
  exact h.inCode_of_mem (by simp [Parts.order, Parts.tail, hfinally])

theorem inCode_epilogueStart (hplan : plan.isSome) : InCode d.whole p.epilogueStart := by
  obtain ⟨id, rest, hepilogue⟩ := List.exists_cons_of_ne_nil (h.tail_ne_nil hplan).2
  unfold Parts.epilogueStart
  rw [hepilogue]
  exact h.inCode_of_mem (by simp [Parts.order, Parts.tail, hepilogue])

variable (hcont : Contiguous 0 code)
include hcont

theorem inCode_index {offset : Offset} {k : NodeId} (hk : (indexByOffset code)[offset]? = some k) :
    InCode d.whole (.node k) := by
  obtain ⟨i, hi, -⟩ := (indexByOffset_eq_some hcont).mp hk
  exact h.inCode_node hi

/-- What goes nowhere but to instructions, to the epilogue and to the ends of ranges can be
written. -/
theorem writable : d.whole.Writable := by
  refine Listing.writable_of_acts (h.whole_order ▸ h.nodup) (h.known.knownIn _) h.map_actOf ?_
  have hplain : ∀ acts : List (Act Binding), (∀ a ∈ acts, a.Plain) →
      ∀ a ∈ acts, ∀ b ∈ a.operand.targets, InCode d.whole b := by
    intro acts hacts a ha b hb
    rw [(hacts a ha).targets] at hb
    cases hb
  simp only [List.forall_mem_append]
  refine ⟨hplain _ (plain_entryActs _ _ _), fun a ha b hb => ?_, hplain _ (plain_tailActs _ _)⟩
  obtain ⟨i, hi, ha⟩ := List.mem_flatMap.mp ha
  rcases targets_imageActs ha b hb with ⟨t, ht, rfl⟩ | ⟨hplan, rfl⟩
  · obtain ⟨k, hk⟩ := h.targets i hi t ht
    rw [moveTo, hk]
    exact h.inCode_index hcont hk
  · exact h.inCode_epilogueStart hplan

theorem inCode_edgeTo (offset : Offset) : InCode d.whole (edgeTo code p.behind offset) := by
  unfold edgeTo
  rcases hindex : (indexByOffset code)[offset]? with - | k
  · exact h.inCode_behind
  · exact h.inCode_index hcont hindex

/-- The clauses of the method and those of the exit probe are about the code. -/
theorem clauses_inCode (hcode : code ≠ []) :
    ∀ c ∈ d.clauses.map (bound d.listing), c.InCode d.whole := by
  rw [h.clauses, List.forall_mem_append, List.forall_mem_map]
  have hedge := h.inCode_edgeTo hcont
  refine ⟨fun c _ => ⟨hedge _, hedge _, hedge _, hedge _⟩, ?_⟩
  rcases hplan : plan with - | q
  · simp
  obtain ⟨i, rest, rfl⟩ := List.exists_cons_of_ne_nil hcode
  have hstart := h.inCode_node (k := 0) rfl
  have hbehind := h.inCode_behind
  have hfinally := h.inCode_finallyStart (hplan ▸ rfl)
  have hepilogue := h.inCode_epilogueStart (hplan ▸ rfl)
  rw [Option.elim_some, exitBound, List.forall_mem_append]
  constructor
  · rcases q.exceptionType with - | type
    · simp
    · simpa using ⟨hstart, hbehind, hbehind, hfinally⟩
  · simpa using ⟨hstart, hfinally, hfinally, hepilogue⟩

/-- Every clause can be placed. -/
theorem exists_placed (hcode : code ≠ []) {layout : Layout}
    (hstands : Layout.Stands d.whole layout 0 d.whole.order) :
    ∀ lc ∈ d.clauses, ∃ c, placed d.whole layout lc = .ok c := by
  intro lc hlc
  have hbound := h.clauses_inCode hcont hcode _ (List.mem_map_of_mem hlc)
  obtain ⟨tryStart, h₁⟩ := Layout.exists_resolve_of_bound hstands hbound.tryStart
  obtain ⟨tryEnd, h₂⟩ := Layout.exists_resolve_of_bound hstands hbound.tryEnd
  obtain ⟨handlerStart, h₃⟩ := Layout.exists_resolve_of_bound hstands hbound.handlerStart
  obtain ⟨handlerEnd, h₄⟩ := Layout.exists_resolve_of_bound hstands hbound.handlerEnd
  exact ⟨_, bind_eq_ok.mpr ⟨tryStart, h₁, bind_eq_ok.mpr ⟨tryEnd, h₂,
    bind_eq_ok.mpr ⟨handlerStart, h₃, bind_eq_ok.mpr ⟨handlerEnd, h₄, rfl⟩⟩⟩⟩⟩

/-! ### Writing -/

/-- A draft that is short enough in some choice of forms, with a table that is, is written in as
many passes as it has branches and returns to redirect, and one. -/
theorem exists_finish_of_valid (hcode : code ≠ []) {S : Finset NodeId} (hS : d.whole.Valid S)
    (hfit : d.whole.extent S d.whole.order ≤ 0x7FFFFFFF) (hfew : body.clauses.length < 600000)
    {limit : Nat}
    (hlimit : (code.countP fun i => i.opcode.isBranch) +
      (if plan.isSome then code.countP fun i => i.opcode = Opcode.ret else 0) < limit)
    (token : Token) : ∃ r, d.finish limit token = .ok r := by
  have hwritable := h.writable hcont
  obtain ⟨layout, bytes, hlayout, hbytes⟩ := exists_written hwritable
    (fun id hid => h.exists_node hid) hS hfit
  have hlayout := hlayout limit (Nat.lt_of_le_of_lt h.card_branches_le hlimit)
  obtain ⟨hstands, hbounded⟩ := Layout.stands_of hwritable.nodup hlayout
  obtain ⟨moved, hmoved⟩ := exists_mapM (f := Draft.moved d.whole layout) fun id hid => by
    obtain ⟨n, hn⟩ := h.exists_node hid
    exact ⟨_, bind_eq_ok.mpr ⟨n, Layout.node_eq_ok.mpr hn, rfl⟩⟩
  obtain ⟨clauses, hclauses⟩ := exists_mapM (h.exists_placed hcont hcode hstands)
  -- what is written is no longer than the layout says, and the table takes 24 bytes a clause
  obtain ⟨rfl, hencodable, -⟩ := assembled hwritable.nodup hwritable.known hlayout hbytes
  have hsize := Layout.codeSize_eq hwritable.known hstands
  rw [codeEnd_eq (List.forall_mem_map.mpr hencodable), Nat.zero_add] at hsize
  have hlength := (mapM_eq_ok.mp hclauses).length_eq
  have htable := h.length_clauses_le
  rcases hdata : (⟨codeBytes (d.whole.order.map (Layout.written d.whole layout)), d.maxStack,
      some token, true, true, clauses⟩ : BodySpec).write with e | data
  · rcases BodySpec.write_eq_error_iff.mp hdata with ⟨hlong, -⟩ | ⟨-, hmany, -⟩
    · have hle := hbounded.1
      exact absurd hlong (by simp only; omega)
    · simp only [Section.headerSize, Section.fatClauseSize] at hmany
      omega
  · exact ⟨_, bind_eq_ok.mpr ⟨layout, hlayout, bind_eq_ok.mpr ⟨_, hbytes, bind_eq_ok.mpr ⟨moved,
      hmoved, bind_eq_ok.mpr ⟨clauses, hclauses, bind_eq_ok.mpr ⟨data, hdata, rfl⟩⟩⟩⟩⟩⟩

/-- So is a draft of code that is short enough, for which all branches may be long. -/
theorem exists_finish (hcode : code ≠ []) (hshort : codeEnd 0 code < 0x8000000)
    (hfew : body.clauses.length < 600000) {limit : Nat}
    (hlimit : (code.countP fun i => i.opcode.isBranch) +
      (if plan.isSome then code.countP fun i => i.opcode = Opcode.ret else 0) < limit)
    (token : Token) : ∃ r, d.finish limit token = .ok r := by
  have hfit := h.extent_le d.whole.branches
  exact h.exists_finish_of_valid hcont hcode d.whole.valid_branches (by omega) hfew hlimit token

end Shape

end Draft

end CilProbe
