/-
CilProbe/Proofs/Probe/Drafting.lean

Drafts that can be made.  A draft is opened for any code of the right shape with locals that
can be read, as long as there are slots left for those of the probes and the types of these can
be written (`exists_ofRequest`).  Both probes go into any draft that was opened
(`exists_insertEntry`, `exists_wrapExit`): a label for the end of a range is asked for where the
check found a boundary, and what is redirected or bound is a node that is there.
-/
import CilProbe.Proofs.Check.Structure
import CilProbe.Proofs.Code.Completion
import CilProbe.Proofs.Probe.Slots

namespace CilProbe

/-! ### Types that can be written -/

namespace Written

/-- Two pieces are written if each of them is. -/
theorem failure_append_eq_none {a b : Written} :
    (a ++ b).failure = none ↔ a.failure = none ∧ b.failure = none := by
  rw [append_def]
  rcases hfailure : a.failure with - | e
  · simp
  · simp [hfailure]

theorem exists_toExcept_iff {w : Written} :
    (∃ bytes, w.toExcept = .ok bytes) ↔ w.failure = none := by
  unfold toExcept
  rcases w.failure with - | e
  · simp
  · simp

end Written

namespace TypeSig

/-- A type that can be written can be written without its modifiers. -/
theorem failure_unmodified {t : TypeSig} (h : t.write.failure = none) :
    t.unmodified.write.failure = none := by
  fun_induction TypeSig.unmodified t with
  | case1 required modifier inner ih =>
    rw [write, Written.failure_append_eq_none] at h
    exact ih h.2
  | case2 inner ih =>
    rw [write, Written.failure_append_eq_none] at h
    exact ih h.2
  | case3 => exact h

/-- Modifiers have no generic parameters of their own. -/
theorem isOpen_unmodified (t : TypeSig) : t.unmodified.isOpen = t.isOpen := by
  fun_induction TypeSig.unmodified t with
  | case1 required modifier inner ih => rw [ih, isOpen]
  | case2 inner ih => rw [ih, isOpen]
  | case3 => rfl

end TypeSig

namespace Draft

/-! ### Locals -/

section Slots

variable {locals : Locals}

theorem exists_addLocal (hcount : locals.count < Locals.slotLimit) {t : TypeSig}
    (ht : t.write.failure = none) :
    ∃ slot locals', (addLocal t).run locals = .ok (slot, locals') := by
  simp only [addLocal, StateT.run, Locals.push, if_neg (Nat.not_le_of_lt hcount), ht]
  exact ⟨_, _, rfl⟩

theorem exists_addExitSlots {ret : TypeSig}
    (hcount : locals.count + slotCount (!ret.isVoid) ≤ Locals.slotLimit)
    (hret : ret.write.failure = none) :
    ∃ slots locals', (addExitSlots ret).run locals = .ok (slots, locals') := by
  unfold addExitSlots
  rcases hvoid : ret.isVoid with - | -
  · rw [hvoid] at hcount
    have hroom : locals.count + 1 < Locals.slotLimit := hcount
    obtain ⟨slot, locals₁, hslot⟩ := exists_addLocal (Nat.lt_of_succ_lt hroom) hret
    obtain ⟨-, hcount₁, -⟩ := addLocal_eq_ok hslot
    obtain ⟨exception, locals₂, hexception⟩ :=
      exists_addLocal (hcount₁ ▸ hroom) (t := .primitive .object) rfl
    refine ⟨⟨some slot, exception⟩, locals₂, run_bind_eq_ok.mpr ⟨some slot, locals₁, ?_, ?_⟩⟩
    · exact run_map_eq_ok.mpr ⟨slot, hslot, rfl⟩
    · exact run_bind_eq_ok.mpr ⟨exception, locals₂, hexception, rfl⟩
  · rw [hvoid] at hcount
    obtain ⟨exception, locals₁, hexception⟩ := exists_addLocal hcount (t := .primitive .object) rfl
    exact ⟨_, _, run_bind_eq_ok.mpr ⟨none, locals, rfl,
      run_bind_eq_ok.mpr ⟨exception, locals₁, hexception, rfl⟩⟩⟩

end Slots

/-! ### Clauses -/

section Labels

variable {l : Listing}

/-- A clause gets its labels if its ranges end at instructions or with the code. -/
theorem exists_labelled {c : Clause} (hl : l.PositionsAgree)
    (h : ∀ o ∈ [c.tryOffset, c.tryEnd, c.handlerOffset, c.handlerEnd],
      ∃ b, l.bindingAt? o = some b) : ∃ lc l', (labelled c).run l = .ok (lc, l') := by
  simp only [List.forall_mem_cons] at h
  obtain ⟨⟨b₁, h₁⟩, ⟨b₂, h₂⟩, ⟨b₃, h₃⟩, ⟨b₄, h₄⟩, -⟩ := h
  obtain ⟨tryStart, l₁, ht₁⟩ := Listing.exists_labelAt h₁
  obtain ⟨e₁, hl₁, -⟩ := Listing.labelAt_extends hl ht₁
  obtain ⟨tryEnd, l₂, ht₂⟩ := Listing.exists_labelAt ((e₁.bindingAt? _).trans h₂)
  obtain ⟨e₂, hl₂, -⟩ := Listing.labelAt_extends hl₁ ht₂
  obtain ⟨handlerStart, l₃, ht₃⟩ :=
    Listing.exists_labelAt (((e₁.trans e₂).bindingAt? _).trans h₃)
  obtain ⟨e₃, hl₃, -⟩ := Listing.labelAt_extends hl₂ ht₃
  obtain ⟨handlerEnd, l₄, ht₄⟩ :=
    Listing.exists_labelAt ((((e₁.trans e₂).trans e₃).bindingAt? _).trans h₄)
  exact ⟨_, l₄, run_bind_eq_ok.mpr ⟨tryStart, l₁, ht₁, run_bind_eq_ok.mpr ⟨tryEnd, l₂, ht₂,
    run_bind_eq_ok.mpr ⟨handlerStart, l₃, ht₃, run_bind_eq_ok.mpr ⟨handlerEnd, l₄, ht₄, rfl⟩⟩⟩⟩⟩

theorem exists_mapM_labelled {clauses : List Clause} (hl : l.PositionsAgree)
    (h : ∀ c ∈ clauses, ∀ o ∈ [c.tryOffset, c.tryEnd, c.handlerOffset, c.handlerEnd],
      ∃ b, l.bindingAt? o = some b) :
    ∃ lcs l', (clauses.mapM labelled).run l = .ok (lcs, l') := by
  obtain ⟨lcs, l', hrun, -⟩ := exists_run_mapM (fun s => l.Extends s ∧ s.PositionsAgree)
    (f := labelled) (fun c hc s ⟨hext, hs⟩ => by
      obtain ⟨lc, s', hlc⟩ := exists_labelled hs fun o ho => by
        rw [hext.bindingAt?]
        exact h c hc o ho
      obtain ⟨hext', hs', -⟩ := labelled_extends hs hlc
      exact ⟨lc, s', hlc, hext.trans hext', hs'⟩) ⟨.refl l, hl⟩
  exact ⟨lcs, l', hrun⟩

/-- The listing of code has something at every boundary. -/
theorem exists_bindingAt? {code : List (Instruction Offset)} {size offset : Offset}
    (hm : l.Mirrors code size) (hcont : Contiguous 0 code) (h : AtBoundary code size offset) :
    ∃ b, l.bindingAt? offset = some b := by
  unfold Listing.bindingAt?
  rw [hm.positionNodes, hm.initialSize]
  rcases hindex : (indexByOffset code)[offset]? with - | k
  · rcases h with ⟨i, hi, heq⟩ | rfl
    · exact absurd heq ((indexByOffset_eq_none hcont).mp hindex i hi)
    · exact ⟨.atEnd, if_pos rfl⟩
  · exact ⟨.node k, rfl⟩

end Labels

/-! ### Opening -/

section Opening

variable {request : ProbeRequest} {body : MethodBody} {code : List (Instruction Offset)}
  {codeSize : Nat}

/-- Code of the right shape is made a listing with labels for the clauses. -/
theorem exists_labels (hcont : Contiguous 0 code) {size : Offset}
    (hwell : Check.WellStructured code size body.clauses) :
    ∃ l, Listing.ofInstructions code size = .ok l ∧
      ∃ lcs l', (body.clauses.mapM labelled).run l = .ok (lcs, l') := by
  obtain ⟨l, hl⟩ := Listing.exists_ofInstructions_iff.mpr fun i hi t ht =>
    (exists_indexByOffset_iff hcont).mpr (hwell.targets i hi t ht)
  obtain ⟨hm, hagree⟩ := Listing.mirrors_ofInstructions hl
  refine ⟨l, hl, exists_mapM_labelled hagree fun c hc => ?_⟩
  obtain ⟨n, hplaced⟩ := hwell.exists_placed hc
  have hedges := hplaced.edges
  simp only [Check.edges, List.forall_mem_cons] at hedges ⊢
  obtain ⟨htry, htryEnd, -, hhandler, hhandlerEnd, -⟩ := hedges
  exact ⟨exists_bindingAt? hm hcont htry, exists_bindingAt? hm hcont htryEnd,
    exists_bindingAt? hm hcont hhandler, exists_bindingAt? hm hcont hhandlerEnd, by simp⟩

/-- A draft is opened if the code has the right shape, and the locals are read, leave slots for
those of the probes, and can be written with them. -/
theorem exists_ofRequest (hsize : codeSize ≤ Offset.last) (hcont : Contiguous 0 code)
    (hwell : Check.WellStructured code (.ofNat codeSize) body.clauses) {locals : Locals}
    (hlocals : Locals.parse request.locals = .ok locals)
    (hcount : locals.count + request.exitSlotCount < Locals.slotLimit)
    (hret : request.policy.exit = true → request.signature.ret.write.failure = none) :
    ∃ d, ofRequest request body code codeSize = .ok d := by
  obtain ⟨l, hl, lcs, l', hlabels⟩ := exists_labels hcont hwell
  have hsize' : Offset.ofNat? codeSize = some (.ofNat codeSize) := if_pos hsize
  unfold ofRequest ProbeRequest.exitSlotCount at *
  rw [hsize']
  simp only [pure_bind]
  rcases hexit : request.policy.exit with - | -
  · simp only [hexit, Bool.false_eq_true, if_false, Nat.add_zero] at hcount ⊢
    obtain ⟨answer, locals₁, hanswer⟩ := exists_addLocal hcount (t := .primitive .i8) rfl
    exact ⟨_, bind_eq_ok.mpr ⟨l, hl, bind_eq_ok.mpr ⟨(lcs, l'), hlabels,
      bind_eq_ok.mpr ⟨locals, hlocals, bind_eq_ok.mpr ⟨(answer, locals₁), hanswer, rfl⟩⟩⟩⟩⟩
  · simp only [hexit, if_true] at hcount ⊢
    -- the type that is pushed is the one returned, without its modifiers
    have hvoid := TypeSig.isVoid_unmodified request.signature.ret
    have hroom : locals.count + slotCount (!request.signature.ret.unmodified.isVoid) ≤
        Locals.slotLimit := by
      rw [hvoid]
      exact Nat.le_of_lt hcount
    obtain ⟨slots, locals₁, hslots⟩ :=
      exists_addExitSlots hroom (TypeSig.failure_unmodified (hret hexit))
    obtain ⟨-, hcount₁⟩ := addExitSlots_eq_ok hslots
    rw [hvoid] at hcount₁
    obtain ⟨answer, locals₂, hanswer⟩ :=
      exists_addLocal (hcount₁ ▸ hcount) (t := .primitive .i8) rfl
    exact ⟨_, bind_eq_ok.mpr ⟨l, hl, bind_eq_ok.mpr ⟨(lcs, l'), hlabels,
      bind_eq_ok.mpr ⟨locals, hlocals, bind_eq_ok.mpr ⟨(slots, locals₁), hslots,
        bind_eq_ok.mpr ⟨(answer, locals₂), hanswer, rfl⟩⟩⟩⟩⟩⟩

end Opening

/-! ### The probes -/

theorem exists_insertEntry (d : Draft) (method enter : Token) :
    ∃ d', d.insertEntry method enter = .ok d' :=
  ⟨_, bind_eq_ok.mpr ⟨_, addAll_run _, rfl⟩⟩

/-- Returns are redirected wherever they are. -/
theorem exists_mapM_redirectReturn {l : Listing} (value : Option UInt16) (epilogue : Label)
    {ids : List NodeId} (hids : ∀ id ∈ ids, id < l.nodes.size) :
    ∃ groups l', (ids.mapM (redirectReturn value epilogue)).run l = .ok (groups, l') := by
  obtain ⟨groups, l', hrun, -⟩ := exists_run_mapM (fun s => l.nodes.size ≤ s.nodes.size)
    (f := redirectReturn value epilogue) (fun id hid s hs => by
      -- nodes are only added, so those that are to be redirected are still there
      have hn := Array.getElem?_eq_getElem (Nat.lt_of_lt_of_le (hids id hid) hs)
      refine ⟨_, _, redirectReturn_run hn value epilogue, Nat.le_trans hs ?_⟩
      show _ ≤ (remade s id _).nodes.size
      rw [size_remade]
      exact Nat.le_add_right _ _) (Nat.le_refl _)
  exact ⟨groups, l', hrun⟩

/-- All code can be wrapped in an exit probe. -/
theorem exists_wrap {l : Listing} (hne : l.order ≠ []) (hnodup : l.order.Nodup)
    (hlt : ∀ id ∈ l.order, id < l.nodes.size) (slots : ExitSlots) (answerSlot : UInt16)
    (exit : Token) (exceptionType : Option Token) :
    ∃ out, (wrap slots answerSlot exit exceptionType).run l = .ok out := by
  obtain ⟨first, rest, horder⟩ := List.exists_cons_of_ne_nil hne
  obtain ⟨groups, l₂, hgroups⟩ := exists_mapM_redirectReturn (l := (l.addLabel .unbound).2)
    slots.value l.bindings.size hlt
  have hredirected := mapM_redirectReturn (l := (l.addLabel .unbound).2) hnodup hlt hgroups
  have hbindings : l₂.bindings = l.bindings.push .unbound := by
    rw [hredirected.listing]
    rfl
  have hfirst : l.order.head? = some first := by
    rw [horder]
    rfl
  exact ⟨_, wrap_run slots answerSlot exit exceptionType hfirst hgroups hbindings⟩

/-- The exit probe goes into every draft that was opened and has the entry probe. -/
theorem exists_wrapExit {request : ProbeRequest} {body : MethodBody}
    {code : List (Instruction Offset)} {size : Offset} {d d' : Draft} {method enter : Token}
    (hopened : Opened request body code size d) (hcode : code ≠ [])
    (hentry : d.insertEntry method enter = .ok d') (slots : ExitSlots) (exit : Token)
    (exceptionType : Option Token) : ∃ d'', d'.wrapExit slots exit exceptionType = .ok d'' := by
  obtain rfl := insertEntry_eq_ok hopened.mirrors.count hentry
  have hm := hopened.mirrors
  set l := withNodes d.listing (entryCode method enter d.answerSlot)
  have horder : l.order = List.range code.length := hm.order
  obtain ⟨⟨⟨order, clauses⟩, L⟩, hwrap⟩ := exists_wrap (l := l)
    (by rw [horder]; simpa using hcode) (horder ▸ List.nodup_range) (fun id hid => by
      rw [horder, List.mem_range, ← hm.count] at hid
      refine Nat.lt_of_lt_of_le hid ?_
      show _ ≤ (d.listing.nodes ++ _).size
      rw [Array.size_append]
      exact Nat.le_add_right _ _) slots d.answerSlot exit exceptionType
  exact ⟨_, bind_eq_ok.mpr ⟨((order, clauses), L), hwrap, rfl⟩⟩

end Draft

end CilProbe
