/-
CilProbe/Proofs/Probe/Opened.lean

What a draft holds when it is opened: a node for each instruction of the method,
labels for the ends of the clause ranges, and the locals of the probes behind those
of the method (`Opened`).

What a node says is told with targets that are bindings, not labels (`Listing.actOf`), so
edits that only add labels do not change it.
-/
import CilProbe.Proofs.Probe.Acts
import CilProbe.Proofs.Probe.Draft

namespace CilProbe

/-! ### Where nodes come from -/

namespace Listing

variable {l : Listing}

/-- Where a node stood in the initial code. -/
def originOf (l : Listing) (id : NodeId) : Option Offset := (l.nodes[id]?).bind Node.origin

theorem originOf_of_node {id : NodeId} {n : Node} (h : l.nodes[id]? = some n) :
    l.originOf id = n.origin := by
  rw [originOf, h]
  rfl

end Listing

namespace Draft

variable {l : Listing}

/-- Nodes that were added say what their instructions say. -/
theorem map_actOf_of_later {ids : List NodeId} {is : List (Instruction Label)}
    (h : ids.map (l.nodes[·]?) = (is.map later).map some) :
    ids.map l.actOf = (is.map fun i => i.act.map l.binding).map some := by
  have hmap := congrArg (List.map fun n? : Option Node =>
    n?.map fun n => n.instruction.act.map l.binding) h
  rw [List.map_map, List.map_map, List.map_map] at hmap
  rw [List.map_map]
  refine Eq.trans hmap (List.map_congr_left fun i _ => ?_)
  simp [later, Listing.long, Instruction.act]

theorem map_originOf_of_later {ids : List NodeId} {is : List (Instruction Label)}
    (h : ids.map (l.nodes[·]?) = (is.map later).map some) :
    ∀ id ∈ ids, l.originOf id = none := by
  intro id hid
  have hmem := List.mem_map_of_mem (f := fun id => l.nodes[id]?) hid
  rw [h] at hmem
  obtain ⟨n, hn, heq⟩ := List.mem_map.mp hmem
  obtain ⟨i, -, rfl⟩ := List.mem_map.mp hn
  exact Listing.originOf_of_node heq.symm

theorem entryCode_acts (method enter : Token) (answerSlot : UInt16) (f : Label → Binding) :
    (entryCode method enter answerSlot).map (fun i => i.act.map f) =
      entryActs method enter answerSlot := by
  rw [← entryActs_map f]
  rfl

theorem catchPart_acts (p : ExitPlan) (f : Label → Binding) :
    (catchPart p.slots p.exceptionType).map (fun i => i.act.map f) = p.catchActs := by
  rw [← p.catchActs_map f]
  unfold catchPart ExitPlan.catchActs
  split <;> rfl

theorem finallyCode_acts (p : ExitPlan) (answerSlot : UInt16) (f : Label → Binding) :
    (finallyCode p.slots answerSlot p.exit).map (fun i => i.act.map f) =
      p.finallyActs answerSlot := by
  rw [← p.finallyActs_map f]
  unfold finallyCode ExitPlan.finallyActs
  rcases p.slots.value with - | slot <;> rfl

theorem epilogueCode_acts (p : ExitPlan) (f : Label → Binding) :
    (epilogueCode p.slots).map (fun i => i.act.map f) = p.epilogueActs := by
  rw [← p.epilogueActs_map f]
  unfold epilogueCode ExitPlan.epilogueActs
  rcases p.slots.value with - | slot <;> rfl

/-! ### Opened drafts -/

/-- Where the ends of the ranges of a clause are, as what labels stand for. -/
structure BoundClause where
  /-- Kind of clause. -/
  flags : ClauseFlags
  /-- The class caught. -/
  classOrFilter : UInt32
  /-- Where the protected range starts. -/
  tryStart : Binding
  /-- Where it ends. -/
  tryEnd : Binding
  /-- Where the handler starts. -/
  handlerStart : Binding
  /-- Where it ends. -/
  handlerEnd : Binding

/-- What the labels of a clause stand for. -/
def bound (l : Listing) (lc : LabelledClause) : BoundClause :=
  ⟨lc.flags, lc.classOrFilter, l.binding lc.tryStart, l.binding lc.tryEnd,
    l.binding lc.handlerStart, l.binding lc.handlerEnd⟩

/-- The labels of a clause stand for the ends of its ranges. -/
structure LabelsOf (l : Listing) (c : Clause) (lc : LabelledClause) : Prop where
  flags : lc.flags = c.flags
  classOrFilter : lc.classOrFilter = c.classOrFilter
  tryStart : l.bindingAt? c.tryOffset = some (l.binding lc.tryStart)
  tryEnd : l.bindingAt? c.tryEnd = some (l.binding lc.tryEnd)
  handlerStart : l.bindingAt? c.handlerOffset = some (l.binding lc.handlerStart)
  handlerEnd : l.bindingAt? c.handlerEnd = some (l.binding lc.handlerEnd)

theorem bindingAt?_mono {l' : Listing} (hl : l.Extends l') {offset : Offset} {label : Label}
    (h : l.bindingAt? offset = some (l.binding label)) :
    l'.bindingAt? offset = some (l'.binding label) := by
  rw [hl.bindingAt?, h, hl.binding label (Listing.ne_unbound_of_bindingAt? h)]

theorem LabelsOf.mono {l' : Listing} {c : Clause} {lc : LabelledClause} (h : LabelsOf l c lc)
    (hl : l.Extends l') : LabelsOf l' c lc where
  flags := h.flags
  classOrFilter := h.classOrFilter
  tryStart := bindingAt?_mono hl h.tryStart
  tryEnd := bindingAt?_mono hl h.tryEnd
  handlerStart := bindingAt?_mono hl h.handlerStart
  handlerEnd := bindingAt?_mono hl h.handlerEnd

/-- Making labels for a clause extends the listing. -/
theorem labelled_extends {l' : Listing} {c : Clause} {lc : LabelledClause}
    (hl : l.PositionsAgree) (h : (labelled c).run l = .ok (lc, l')) :
    l.Extends l' ∧ l'.PositionsAgree ∧ l'.nodes = l.nodes ∧ LabelsOf l' c lc := by
  obtain ⟨tryStart, l₁, h₁, h⟩ := run_bind_eq_ok.mp h
  obtain ⟨tryEnd, l₂, h₂, h⟩ := run_bind_eq_ok.mp h
  obtain ⟨handlerStart, l₃, h₃, h⟩ := run_bind_eq_ok.mp h
  obtain ⟨handlerEnd, l₄, h₄, h⟩ := run_bind_eq_ok.mp h
  obtain ⟨rfl, rfl⟩ := run_pure_eq_ok.mp h
  obtain ⟨e₁, hl₁, hn₁, ha₁⟩ := Listing.labelAt_extends hl h₁
  obtain ⟨e₂, hl₂, hn₂, ha₂⟩ := Listing.labelAt_extends hl₁ h₂
  obtain ⟨e₃, hl₃, hn₃, ha₃⟩ := Listing.labelAt_extends hl₂ h₃
  obtain ⟨e₄, hl₄, hn₄, ha₄⟩ := Listing.labelAt_extends hl₃ h₄
  rw [← e₁.bindingAt?] at ha₁
  rw [← e₂.bindingAt?] at ha₂
  rw [← e₃.bindingAt?] at ha₃
  rw [← e₄.bindingAt?] at ha₄
  refine ⟨((e₁.trans e₂).trans e₃).trans e₄, hl₄, by rw [hn₄, hn₃, hn₂, hn₁], rfl, rfl, ?_, ?_, ?_,
    ha₄⟩
  · exact bindingAt?_mono ((e₂.trans e₃).trans e₄) ha₁
  · exact bindingAt?_mono (e₃.trans e₄) ha₂
  · exact bindingAt?_mono e₄ ha₃

theorem mapM_labelled_extends {l' : Listing} {clauses : List Clause}
    {labelledClauses : List LabelledClause} (hl : l.PositionsAgree)
    (h : (clauses.mapM labelled).run l = .ok (labelledClauses, l')) :
    l.Extends l' ∧ l'.nodes = l.nodes ∧ List.Forall₂ (LabelsOf l') clauses labelledClauses := by
  obtain ⟨⟨hext, -, hnodes⟩, hall, -⟩ := run_mapM_eq_ok
    (fun s => l.Extends s ∧ s.PositionsAgree ∧ s.nodes = l.nodes)
    (fun c lc s => LabelsOf s c lc) (by
      rintro c - s lc s' ⟨hext, hagree, hnodes⟩ hrun
      obtain ⟨hext', hagree', hnodes', hlabels⟩ := labelled_extends hagree hrun
      exact ⟨⟨hext.trans hext', hagree', hnodes'.trans hnodes⟩, hlabels,
        fun c lc hlc => hlc.mono hext'⟩) ⟨.refl l, hl, rfl⟩ h
  exact ⟨hext, hnodes, hall⟩

theorem addLocal_eq_ok {t : TypeSig} {locals locals' : Locals} {slot : UInt16}
    (h : (addLocal t).run locals = .ok (slot, locals')) :
    slot = .ofNat locals.count ∧ locals'.count = locals.count + 1 ∧
      locals.count < Locals.slotLimit := by
  simp only [addLocal, StateT.run, Locals.push] at h
  by_cases hfull : Locals.slotLimit ≤ locals.count
  · rw [if_pos hfull] at h
    cases h
  · rw [if_neg hfull] at h
    rcases hfailure : t.write.failure with - | e
    · rw [hfailure] at h
      cases h
      exact ⟨rfl, rfl, Nat.lt_of_not_le hfull⟩
    · rw [hfailure] at h
      cases h

/-- The exit probe's locals, behind `count` others. -/
def slotsAfter (count : Nat) (returnsValue : Bool) : ExitSlots :=
  if returnsValue then ⟨some (.ofNat count), .ofNat (count + 1)⟩ else ⟨none, .ofNat count⟩

/-- How many locals the exit probe needs. -/
def slotCount (returnsValue : Bool) : Nat := if returnsValue then 2 else 1

theorem addExitSlots_eq_ok {ret : TypeSig} {locals locals' : Locals} {slots : ExitSlots}
    (h : (addExitSlots ret).run locals = .ok (slots, locals')) :
    slots = slotsAfter locals.count (!ret.isVoid) ∧
      locals'.count = locals.count + slotCount (!ret.isVoid) := by
  unfold addExitSlots at h
  rcases hvoid : ret.isVoid with - | -
  · simp only [hvoid, Bool.false_eq_true, if_false] at h
    obtain ⟨value, locals₁, hvalue, h⟩ := run_bind_eq_ok.mp h
    obtain ⟨slot, hslot, rfl⟩ := run_map_eq_ok.mp hvalue
    obtain ⟨exception, locals₂, hexception, h⟩ := run_bind_eq_ok.mp h
    obtain ⟨rfl, rfl⟩ := run_pure_eq_ok.mp h
    obtain ⟨rfl, hcount, -⟩ := addLocal_eq_ok hslot
    obtain ⟨rfl, hcount', -⟩ := addLocal_eq_ok hexception
    rw [hcount] at hcount' ⊢
    exact ⟨rfl, hcount'⟩
  · simp only [hvoid, if_true, pure_bind] at h
    obtain ⟨exception, locals₂, hexception, h⟩ := run_bind_eq_ok.mp h
    obtain ⟨rfl, rfl⟩ := run_pure_eq_ok.mp h
    obtain ⟨rfl, hcount, -⟩ := addLocal_eq_ok hexception
    exact ⟨rfl, hcount⟩

end Draft

namespace TypeSig

theorem unmodified_unmodified (t : TypeSig) : t.unmodified.unmodified = t.unmodified := by
  fun_induction TypeSig.unmodified t with
  | case1 _ _ _ ih => exact ih
  | case2 _ ih => exact ih
  | case3 t hmodified hpinned =>
    unfold unmodified
    split
    · next a b c => exact (hmodified a b c rfl).elim
    · next a => exact (hpinned a rfl).elim
    · rfl

theorem isVoid_unmodified (t : TypeSig) : t.unmodified.isVoid = t.isVoid := by
  unfold isVoid
  rw [unmodified_unmodified]

end TypeSig

namespace ProbeRequest

/-- Whether the method returns a value. -/
def returnsValue (r : ProbeRequest) : Bool := !r.signature.ret.isVoid

/-- The locals of the exit probe behind `count` others, if it is injected. -/
def exitSlotsAfter (r : ProbeRequest) (count : Nat) : Option ExitSlots :=
  if r.policy.exit then some (Draft.slotsAfter count r.returnsValue) else none

/-- How many there are. -/
def exitSlotCount (r : ProbeRequest) : Nat :=
  if r.policy.exit then Draft.slotCount r.returnsValue else 0

end ProbeRequest

namespace Draft

/-- A draft shows the code of a method, has labels for its clauses, and the locals
of the probes behind those of the method. -/
structure Opened (request : ProbeRequest) (body : MethodBody) (code : List (Instruction Offset))
    (size : Offset) (d : Draft) : Prop where
  mirrors : d.listing.Mirrors code size
  clauses : List.Forall₂ (LabelsOf d.listing) body.clauses d.clauses
  maxStack : d.maxStack = max body.maxStack (neededStack d.exitSlots)
  locals : ∃ locals, Locals.parse request.locals = .ok locals ∧
    d.exitSlots = request.exitSlotsAfter locals.count ∧
    d.answerSlot = .ofNat (locals.count + request.exitSlotCount) ∧
    locals.count + request.exitSlotCount < Locals.slotLimit

theorem opened_of_ofRequest {request : ProbeRequest} {body : MethodBody}
    {code : List (Instruction Offset)} {codeSize : Nat} {d : Draft}
    (h : ofRequest request body code codeSize = .ok d) :
    ∃ size : Offset, size.toNat = codeSize ∧ Opened request body code size d ∧ d.entry = [] := by
  unfold ofRequest at h
  rcases hsize : Offset.ofNat? codeSize with - | size
  · rw [hsize] at h
    cases h
  · rw [hsize] at h
    refine ⟨size, Offset.toNat_of_ofNat? hsize, ?_⟩
    simp only [pure_bind] at h
    obtain ⟨listing, hlisting, h⟩ := bind_eq_ok.mp h
    obtain ⟨⟨clauses, listing'⟩, hclauses, h⟩ := bind_eq_ok.mp h
    obtain ⟨locals, hlocals, h⟩ := bind_eq_ok.mp h
    obtain ⟨hmirrors, hagree⟩ := Listing.mirrors_ofInstructions hlisting
    obtain ⟨hext, hnodes, hlabels⟩ := mapM_labelled_extends hagree hclauses
    have hmirrors' := hmirrors.mono hext hnodes
    rcases hexit : request.policy.exit with - | -
    · -- the only new local is the entry helper's answer
      simp only [hexit, Bool.false_eq_true, if_false] at h
      obtain ⟨⟨answer, locals₁⟩, hanswer, h⟩ := bind_eq_ok.mp h
      obtain rfl := pure_eq_ok.mp h
      obtain ⟨rfl, -, hlt⟩ := addLocal_eq_ok hanswer
      refine ⟨⟨hmirrors', hlabels, rfl, locals, hlocals, ?_⟩, rfl⟩
      simp only [ProbeRequest.exitSlotsAfter, ProbeRequest.exitSlotCount, hexit,
        Bool.false_eq_true, if_false]
      exact ⟨trivial, rfl, hlt⟩
    · -- the locals of the exit come first, and the answer behind them
      simp only [hexit, if_true] at h
      obtain ⟨⟨slots, locals₁⟩, hslots, h⟩ := bind_eq_ok.mp h
      obtain ⟨⟨answer, locals₂⟩, hanswer, h⟩ := bind_eq_ok.mp h
      obtain rfl := pure_eq_ok.mp h
      obtain ⟨rfl, hcount⟩ := addExitSlots_eq_ok hslots
      obtain ⟨rfl, -, hlt⟩ := addLocal_eq_ok hanswer
      rw [TypeSig.isVoid_unmodified] at hcount ⊢
      rw [hcount] at hlt
      refine ⟨⟨hmirrors', hlabels, rfl, locals, hlocals, ?_⟩, rfl⟩
      simp only [ProbeRequest.exitSlotsAfter, ProbeRequest.exitSlotCount, hexit, if_true]
      exact ⟨rfl, by rw [hcount]; rfl, hlt⟩

end Draft

end CilProbe
