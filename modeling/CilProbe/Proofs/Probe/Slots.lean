/-
CilProbe/Proofs/Probe/Slots.lean

The locals of the probes.  They are pushed to those of the method, so they come behind them
and no two of them share a slot (`extended_of_probe`).  The injected code stores to these slots
and loads from them, each for the value it was made for, and nothing else in it is about a
local; an instruction of the method keeps the local it is about (`Relocated.uses`).
-/
import CilProbe.Proofs.Probe.Relocation
import CilProbe.Proofs.Signature.Locals

namespace CilProbe

/-! ### Which locals code is about -/

/-- The locals that code stores to, and those that it loads, in order. -/
def touched (code : List (Instruction Offset)) : List UInt16 × List UInt16 :=
  (code.filterMap Instruction.storedLocal?, code.filterMap Instruction.loadedLocal?)

/-- Code that says the same is about the same locals. -/
theorem touched_congr {code code' : List (Instruction Offset)}
    (h : code.map Instruction.act = code'.map Instruction.act) : touched code = touched code' := by
  have hword : ∀ i : Instruction Offset, i.act = (Instruction.new i.act.opcode i.act.operand).act :=
    fun i => congrArg (Act.mk · i.operand) (Opcode.longForm_longForm i.opcode).symm
  have hstored : (Instruction.storedLocal? : Instruction Offset → Option UInt16) =
      (fun a => (Instruction.new a.opcode a.operand).storedLocal?) ∘ Instruction.act :=
    funext fun i => (Instruction.local?_congr (hword i)).1
  have hloaded : (Instruction.loadedLocal? : Instruction Offset → Option UInt16) =
      (fun a => (Instruction.new a.opcode a.operand).loadedLocal?) ∘ Instruction.act :=
    funext fun i => (Instruction.local?_congr (hword i)).2
  unfold touched
  rw [hstored, hloaded, ← List.filterMap_map, ← List.filterMap_map, h, List.filterMap_map,
    List.filterMap_map]

theorem touched_append (code code' : List (Instruction Offset)) :
    touched (code ++ code') =
      ((touched code).1 ++ (touched code').1, (touched code).2 ++ (touched code').2) := by
  unfold touched
  rw [List.filterMap_append, List.filterMap_append]

theorem touched_storeLocals (slots : List UInt16) :
    touched (slots.map Instruction.storeLocal) = (slots, []) := by
  induction slots with
  | nil => rfl
  | cons slot slots ih =>
    obtain ⟨hstores, hloads⟩ := Prod.mk.inj ih
    unfold touched
    rw [List.map_cons, List.filterMap_cons_some (Instruction.storedLocal?_storeLocal slot),
      List.filterMap_cons_none (Instruction.loadedLocal?_storeLocal slot), hstores, hloads]

theorem touched_loadLocals (slots : List UInt16) :
    touched (slots.map Instruction.loadLocal) = ([], slots) := by
  induction slots with
  | nil => rfl
  | cons slot slots ih =>
    obtain ⟨hstores, hloads⟩ := Prod.mk.inj ih
    unfold touched
    rw [List.map_cons, List.filterMap_cons_some (Instruction.loadedLocal?_loadLocal slot),
      List.filterMap_cons_none (Instruction.storedLocal?_loadLocal slot), hstores, hloads]

/-- Code that stores to some locals, and goes on with code that is about none. -/
theorem touched_of_stores {code : List (Instruction Offset)} {slots : List UInt16}
    (others : List (Instruction Offset))
    (h : code.map Instruction.act =
      (slots.map Instruction.storeLocal ++ others).map Instruction.act)
    (hothers : touched others = ([], [])) : touched code = (slots, []) := by
  rw [touched_congr h, touched_append, touched_storeLocals, hothers]
  simp only [List.append_nil]

/-- Code that loads some locals, and goes on with code that is about none. -/
theorem touched_of_loads {code : List (Instruction Offset)} {slots : List UInt16}
    (others : List (Instruction Offset))
    (h : code.map Instruction.act =
      (slots.map Instruction.loadLocal ++ others).map Instruction.act)
    (hothers : touched others = ([], [])) : touched code = ([], slots) := by
  rw [touched_congr h, touched_append, touched_loadLocals, hothers]
  simp only [List.append_nil]

/-- An instruction of the method that stays: only targets move, only the form of a branch may
change, and it is about the same local. -/
structure Instruction.KeptAs (move : Offset → Offset) (i j : Instruction Offset) : Prop where
  opcode : i.opcode.isBranch = false → j.opcode = i.opcode
  operand : j.operand = i.operand.map move
  untargeted : i.operand.targets = [] → j.operand = i.operand
  stored : j.storedLocal? = i.storedLocal?
  loaded : j.loadedLocal? = i.loadedLocal?

theorem Operand.map_of_targets {τ : Type} {f : τ → τ} {o : Operand τ} (h : o.targets = []) :
    o.map f = o := by
  cases o with
  | target t => cases h
  | switch ts =>
    obtain rfl : ts = [] := h
    rfl
  | _ => rfl

theorem Instruction.local?_map {τ σ : Type} (f : τ → σ) (i : Instruction τ) :
    (i.map f).storedLocal? = i.storedLocal? ∧ (i.map f).loadedLocal? = i.loadedLocal? := by
  rcases i with ⟨offset, opcode, operand⟩
  cases operand <;> exact ⟨rfl, rfl⟩

theorem Instruction.keptAs_of_act {move : Offset → Offset} {i j : Instruction Offset}
    (h : j.act = i.act.map move) : i.KeptAs move j := by
  have hopcode : j.opcode.longForm = i.opcode.longForm := congrArg Act.opcode h
  have hoperand : j.operand = i.operand.map move := congrArg Act.operand h
  obtain ⟨hstored, hloaded⟩ := local?_congr (h.trans (act_map move i).symm)
  obtain ⟨hstored', hloaded'⟩ := i.local?_map move
  refine ⟨fun hbranch => ?_, hoperand, fun htargets => ?_, hstored.trans hstored',
    hloaded.trans hloaded'⟩
  · have hnot : ¬i.opcode.isBranch := Bool.eq_false_iff.mp hbranch
    rw [Opcode.longForm_of_not_isShortBranch fun hs =>
      hnot (Opcode.isBranch_of_isShortBranch hs)] at hopcode
    exact Opcode.eq_of_longForm_eq hopcode hnot
  · rw [hoperand, Operand.map_of_targets htargets]

/-! ### The locals of the probes in the new code -/

/-- What stands for an instruction of the method, as far as locals go: a return that is
redirected stores the value, and anything else is kept. -/
def ImageSlots (plan : Option ExitPlan) (move : Offset → Offset) (i : Instruction Offset)
    (image : List (Instruction Offset)) : Prop :=
  (∃ p, plan = some p ∧ i.opcode = Opcode.ret ∧ touched image = (p.slots.value.toList, [])) ∨
    (plan = none ∨ i.opcode ≠ Opcode.ret) ∧ ∃ j, image = [j] ∧ i.KeptAs move j

/-- The parts of the new code store to the slots of the probes and load from them, and do
nothing else with locals. -/
structure UsesSlots (plan : Option ExitPlan) (answerSlot : UInt16) (move : Offset → Offset)
    (code : List (Instruction Offset)) (c : CodeParts) : Prop where
  entry : touched c.entry = ([answerSlot], [])
  images : List.Forall₂ (ImageSlots plan move) code c.images
  catch_ : touched c.catch_ =
    (plan.elim [] fun p => if p.exceptionType.isSome then [p.slots.exception] else [], [])
  finally_ : touched c.finally_ =
    ([], plan.elim [] fun p => p.slots.value.toList ++ [p.slots.exception, answerSlot])
  epilogue : touched c.epilogue = ([], plan.elim [] fun p => p.slots.value.toList)

namespace ExitPlan

variable (p : ExitPlan)

theorem touched_return {image : List (Instruction Offset)} {epilogue : Offset}
    (h : image.map Instruction.act = p.returnActs epilogue) :
    touched image = (p.slots.value.toList, []) := by
  refine touched_of_stores [.new Opcode.leave (.target epilogue)] (h.trans ?_) rfl
  unfold returnActs
  rcases p.slots.value with - | slot <;> rfl

theorem touched_catch {code : List (Instruction Offset)}
    (h : code.map Instruction.act = p.catchActs) :
    touched code = (if p.exceptionType.isSome then [p.slots.exception] else [], []) := by
  unfold catchActs at h
  split
  · next hobserved =>
    rw [if_pos hobserved] at h
    exact touched_of_stores [.new Opcode.rethrow .none] h rfl
  · next hobserved =>
    rw [if_neg hobserved] at h
    rw [List.map_eq_nil_iff.mp h]
    rfl

theorem touched_finally {code : List (Instruction Offset)} {answerSlot : UInt16}
    (h : code.map Instruction.act = p.finallyActs answerSlot) :
    touched code = ([], p.slots.value.toList ++ [p.slots.exception, answerSlot]) := by
  refine touched_of_loads
    [.new Opcode.call (.token p.exit), .new Opcode.endfinally .none] (h.trans ?_) rfl
  unfold finallyActs
  rcases p.slots.value with - | slot <;> rfl

theorem touched_epilogue {code : List (Instruction Offset)}
    (h : code.map Instruction.act = p.epilogueActs) :
    touched code = ([], p.slots.value.toList) := by
  refine touched_of_loads [.new Opcode.ret .none] (h.trans ?_) rfl
  unfold epilogueActs
  rcases p.slots.value with - | slot <;> rfl

end ExitPlan

namespace Relocated

variable {body : MethodBody} {code : List (Instruction Offset)} {size : Offset}
  {method enter : Token} {answerSlot : UInt16} {plan : Option ExitPlan} {r : ProbedMethod}
  {c : CodeParts}

theorem imageSlots (h : Relocated body code size method enter answerSlot plan r c) :
    List.Forall₂ (ImageSlots plan r.move) code c.images := by
  refine h.forall₂_images.imp fun i image himage => ?_
  obtain ⟨-, hacts⟩ := himage
  have hkept : image.map Instruction.act = [i.act.map r.move] →
      ∃ j, image = [j] ∧ i.KeptAs r.move j := by
    intro hone
    obtain ⟨j, rest, rfl, hj, hrest⟩ := List.map_eq_cons_iff.mp hone
    obtain rfl := List.map_eq_nil_iff.mp hrest
    exact ⟨j, rfl, Instruction.keptAs_of_act hj⟩
  unfold imageActs at hacts
  rcases plan with - | p
  · exact .inr ⟨.inl rfl, hkept hacts⟩
  · simp only at hacts
    split at hacts
    · next hret => exact .inl ⟨p, rfl, hret, p.touched_return hacts⟩
    · next hret => exact .inr ⟨.inr hret, hkept hacts⟩

/-- The new code uses the slots of the probes for what they are for. -/
theorem usesSlots (h : Relocated body code size method enter answerSlot plan r c) :
    UsesSlots plan answerSlot r.move code c := by
  have hentry : touched c.entry = ([answerSlot], []) := by
    have hsame : c.entry.map Instruction.act = ([.new Opcode.ldc (.int32 method.value.toInt32),
        .new Opcode.call (.token enter), .storeLocal answerSlot] : List (Instruction Offset)).map
          Instruction.act := h.entry
    rw [touched_congr hsame]
    exact touched_storeLocals [answerSlot]
  have hcatch := h.catch_
  have hfinally := h.finally_
  have hepilogue := h.epilogue
  rcases plan with - | p
  · exact ⟨hentry, h.imageSlots, congrArg touched (List.map_eq_nil_iff.mp hcatch),
      congrArg touched (List.map_eq_nil_iff.mp hfinally),
      congrArg touched (List.map_eq_nil_iff.mp hepilogue)⟩
  · exact ⟨hentry, h.imageSlots, p.touched_catch hcatch, p.touched_finally hfinally,
      p.touched_epilogue hepilogue⟩

end Relocated

/-! ### The signature of the locals -/

namespace ProbeRequest

/-- The types of the locals that the exit probe needs. -/
def exitTypes (r : ProbeRequest) : List TypeSig :=
  (if r.returnsValue then [r.signature.ret.unmodified] else []) ++ [.primitive .object]

/-- The types of the locals of the probes, in the order in which they are added. -/
def addedTypes (r : ProbeRequest) : List TypeSig :=
  (if r.policy.exit then r.exitTypes else []) ++ [.primitive .i8]

end ProbeRequest

/-- The slots of the probes, in the order in which they are added. -/
def probeSlots (slots : Option ExitSlots) (answerSlot : UInt16) : List UInt16 :=
  (slots.elim [] fun slots => slots.value.toList ++ [slots.exception]) ++ [answerSlot]

theorem Locals.Pushes.append {l l₁ l' : Locals} {ts ts' : List TypeSig} {slots slots' : List UInt16}
    (h : l.Pushes ts slots l₁) (h' : l₁.Pushes ts' slots' l') :
    l.Pushes (ts ++ ts') (slots ++ slots') l' := by
  induction h with
  | nil => exact h'
  | cons hpush _ ih => exact .cons hpush (ih h')

namespace Draft

variable {request : ProbeRequest}

theorem pushes_of_addLocal {t : TypeSig} {locals locals' : Locals} {slot : UInt16}
    (h : (addLocal t).run locals = .ok (slot, locals')) : locals.Pushes [t] [slot] locals' := by
  refine .cons ?_ (.nil locals')
  simp only [addLocal, StateT.run] at h
  split at h
  · next hpush =>
    cases h
    exact hpush
  · cases h

theorem pushes_of_addExitSlots {locals locals' : Locals} {slots : ExitSlots}
    (h : (addExitSlots request.signature.ret.unmodified).run locals = .ok (slots, locals')) :
    locals.Pushes request.exitTypes (slots.value.toList ++ [slots.exception]) locals' := by
  unfold addExitSlots at h
  unfold ProbeRequest.exitTypes ProbeRequest.returnsValue
  rw [TypeSig.isVoid_unmodified] at h
  rcases hvoid : request.signature.ret.isVoid with - | -
  · simp only [hvoid, Bool.false_eq_true, if_false] at h
    obtain ⟨value, locals₁, hvalue, h⟩ := run_bind_eq_ok.mp h
    obtain ⟨slot, hslot, rfl⟩ := run_map_eq_ok.mp hvalue
    obtain ⟨exception, locals₂, hexception, h⟩ := run_bind_eq_ok.mp h
    obtain ⟨rfl, rfl⟩ := run_pure_eq_ok.mp h
    exact (pushes_of_addLocal hslot).append (pushes_of_addLocal hexception)
  · simp only [hvoid, if_true, pure_bind] at h
    obtain ⟨exception, locals₂, hexception, h⟩ := run_bind_eq_ok.mp h
    obtain ⟨rfl, rfl⟩ := run_pure_eq_ok.mp h
    exact pushes_of_addLocal hexception

/-- An opened draft has the locals of the method with those of the probes pushed to them. -/
theorem pushes_of_ofRequest {body : MethodBody} {code : List (Instruction Offset)} {codeSize : Nat}
    {d : Draft} (h : ofRequest request body code codeSize = .ok d) :
    ∃ locals, Locals.parse request.locals = .ok locals ∧
      locals.Pushes request.addedTypes (probeSlots d.exitSlots d.answerSlot) d.locals := by
  unfold ofRequest at h
  rcases hsize : Offset.ofNat? codeSize with - | size
  · rw [hsize] at h
    cases h
  rw [hsize] at h
  simp only [pure_bind] at h
  obtain ⟨listing, -, h⟩ := bind_eq_ok.mp h
  obtain ⟨⟨clauses, listing'⟩, -, h⟩ := bind_eq_ok.mp h
  obtain ⟨locals, hlocals, h⟩ := bind_eq_ok.mp h
  refine ⟨locals, hlocals, ?_⟩
  unfold ProbeRequest.addedTypes
  rcases hexit : request.policy.exit with - | -
  · simp only [hexit, Bool.false_eq_true, if_false] at h ⊢
    obtain ⟨⟨answer, locals₁⟩, hanswer, h⟩ := bind_eq_ok.mp h
    obtain rfl := pure_eq_ok.mp h
    exact pushes_of_addLocal hanswer
  · simp only [hexit, if_true] at h ⊢
    obtain ⟨⟨slots, locals₁⟩, hslots, h⟩ := bind_eq_ok.mp h
    obtain ⟨⟨answer, locals₂⟩, hanswer, h⟩ := bind_eq_ok.mp h
    obtain rfl := pure_eq_ok.mp h
    exact (pushes_of_addExitSlots hslots).append (pushes_of_addLocal hanswer)

theorem insertEntry_locals {d d' : Draft} {method enter : Token}
    (h : d.insertEntry method enter = .ok d') : d'.locals = d.locals := by
  unfold insertEntry at h
  obtain ⟨⟨entry, listing⟩, -, h⟩ := bind_eq_ok.mp h
  obtain rfl := pure_eq_ok.mp h
  rfl

theorem wrapExit_locals {d d' : Draft} {slots : ExitSlots} {exit : Token}
    {exceptionType : Option Token} (h : d.wrapExit slots exit exceptionType = .ok d') :
    d'.locals = d.locals := by
  unfold wrapExit at h
  obtain ⟨⟨⟨order, clauses⟩, l⟩, -, h⟩ := bind_eq_ok.mp h
  obtain rfl := pure_eq_ok.mp h
  rfl

end Draft

/-- Where a method comes out instrumented, the last thing that the source was asked for is the
signature of the locals of the method with those of the probes behind them. -/
theorem extended_of_probe {σ : Type} {source : TokenSource (StateM σ)} {request : ProbeRequest}
    {limit : Nat} {r : ProbedMethod} {s s' : σ}
    (h : (probe limit request source).run.run s = (.ok (.probed r), s')) :
    ∃ locals extended blob s₁, Locals.parse request.locals = .ok locals ∧
      locals.Pushes request.addedTypes (probeSlots (request.exitSlotsAfter locals.count)
        (.ofNat (locals.count + request.exitSlotCount))) extended ∧
      extended.encode = .ok blob ∧
      (source.localSignature blob).run.run s₁ = (.ok r.localsToken, s') := by
  unfold probe at h
  obtain ⟨⟨body, bytes⟩, -, h⟩ := attempt_mk_bind_eq_ok.mp h
  obtain ⟨code, -, h⟩ := attempt_mk_bind_eq_ok.mp h
  obtain ⟨enter, s₁, -, h⟩ := attempt_bind_eq_ok.mp h
  split at h
  · obtain ⟨heq, -⟩ := attempt_pure_eq_ok.mp h
    cases heq
  obtain ⟨_, -, h⟩ := attempt_mk_bind_eq_ok.mp h
  obtain ⟨d, hopen, h⟩ := attempt_mk_bind_eq_ok.mp h
  obtain ⟨d', hentry, h⟩ := attempt_mk_bind_eq_ok.mp h
  obtain ⟨locals, hlocals, hpushes⟩ := Draft.pushes_of_ofRequest hopen
  obtain ⟨size, -, hopened, -⟩ := Draft.opened_of_ofRequest hopen
  obtain ⟨locals', hlocals', hexitSlots, hanswerSlot, -⟩ := hopened.locals
  obtain rfl := Except.ok.inj (hlocals.symm.trans hlocals')
  rw [hexitSlots, hanswerSlot] at hpushes
  have hd' := Draft.insertEntry_locals hentry
  have hclosed : ∃ d'' : Draft, d''.locals = d.locals ∧ ∃ s₂ blob token,
      d''.locals.encode = .ok blob ∧ (source.localSignature blob).run.run s₂ = (.ok token, s') ∧
      d''.finish (max limit 1) token = .ok r := by
    split at h
    · simp only [pure_bind] at h
      exact ⟨d', hd', s₁, closing_eq_ok h⟩
    · obtain ⟨⟨exit, exceptionType⟩, s₂, -, h⟩ := attempt_bind_eq_ok.mp h
      obtain ⟨d'', hwrap, h⟩ := attempt_mk_bind_eq_ok.mp h
      exact ⟨d'', (Draft.wrapExit_locals hwrap).trans hd', s₂, closing_eq_ok h⟩
  obtain ⟨d'', hd'', s₂, blob, token, hblob, htoken, hfinish⟩ := hclosed
  obtain ⟨-, -, -, -, -, -, -, -, -, -, rfl, -⟩ := Draft.finish_eq_ok hfinish
  exact ⟨locals, d.locals, blob, s₂, hlocals, hpushes, hd'' ▸ hblob, htoken⟩

theorem ProbeRequest.isSome_value {request : ProbeRequest} {plan : Option ExitPlan} {count : Nat}
    (h : plan.map ExitPlan.slots = request.exitSlotsAfter count) :
    ∀ p ∈ plan, p.slots.value.isSome = request.returnsValue := by
  rintro p hp
  rw [Option.mem_def.mp hp, ProbeRequest.exitSlotsAfter] at h
  split at h
  · rw [Option.some.inj h, Draft.slotsAfter]
    cases request.returnsValue <;> rfl
  · cases h

/-- Slots that are pushed come behind those there are, and no two are the same. -/
theorem Locals.Pushes.fresh {l l' : Locals} {ts : List TypeSig} {slots : List UInt16}
    (h : l.Pushes ts slots l') : slots.Nodup ∧ ∀ slot ∈ slots, l.count ≤ slot.toNat := by
  obtain ⟨hslots, -⟩ := h.eq
  constructor
  · have hnodup : (slots.map UInt16.toNat).Nodup := hslots ▸ List.nodup_range'
    exact List.Pairwise.of_map UInt16.toNat (fun _ _ hne heq => hne (congrArg _ heq)) hnodup
  · intro slot hslot
    have hmem := List.mem_map_of_mem (f := UInt16.toNat) hslot
    rw [hslots] at hmem
    exact (List.mem_range'_1.mp hmem).1

/-- Types that are pushed to locals get the next slots, and what is written then is the count,
the bytes of the types there were, and the encodings of the new ones; it is parsed again if each
of these encodings, by itself, is read as a type to its last byte.

When a method is instrumented, the signature of locals that the source is asked for is that of
the method, with the type returned, where the exit probe is injected and there is one, the type
of all objects, where the exit probe is injected, and the type of the answer pushed to it.  The
injected code stores each of these values to its slot and loads it from there, and does nothing
else with locals; the instructions of the method keep theirs. -/
theorem locals_extended :
    (∀ (blob : List UInt8) (l l' : Locals) (ts : List TypeSig) (slots : List UInt16),
      Locals.parse blob = .ok l → l.Pushes ts slots l' →
      slots.map UInt16.toNat = List.range' l.count ts.length ∧
      (blob = [] → l = .none) ∧ (blob ≠ [] → l.StandIn blob) ∧
      ∃ numeral encodings, Compressed.encode (l.count + ts.length) = .ok numeral ∧
        ts.mapM TypeSig.encode = .ok encodings ∧
        l'.encode = .ok (0x07 :: (numeral ++ (l.types ++ encodings.flatten))) ∧
        ((∀ t ∈ ts, t.StandsAlone) → l'.count = l.count + ts.length ∧
          Locals.parse (0x07 :: (numeral ++ (l.types ++ encodings.flatten))) = .ok l')) ∧
    ∀ {σ : Type} (source : TokenSource (StateM σ)) (request : ProbeRequest) (limit : Nat)
      (r : ProbedMethod) (s s' : σ),
      (probe limit request source).run.run s = (.ok (.probed r), s') →
      ∃ (body : MethodBody) (bytes : List UInt8) (code : List (Instruction Offset))
        (locals extended : Locals) (blob : List UInt8) (s₁ : σ) (enter : Token)
        (plan : Option ExitPlan) (answerSlot : UInt16) (body' : MethodBody) (c : CodeParts),
        request.read = .ok (body, bytes) ∧ decode bytes = .ok code ∧
        Locals.parse request.locals = .ok locals ∧ plan.isSome = request.policy.exit ∧
        (∀ p ∈ plan, p.slots.value.isSome = request.returnsValue) ∧
        (let slots := probeSlots (plan.map ExitPlan.slots) answerSlot
         locals.Pushes request.addedTypes slots extended ∧ slots.Nodup ∧
          ∀ slot ∈ slots, locals.count ≤ slot.toNat) ∧
        extended.encode = .ok blob ∧
        (source.localSignature blob).run.run s₁ = (.ok r.localsToken, s') ∧
        MethodBody.read r.body = .ok body' ∧ body'.localsToken = r.localsToken ∧
        body'.code r.body = .ok (codeBytes c.all) ∧ decode (codeBytes c.all) = .ok c.all ∧
        c.entry.map Instruction.act = entryActs request.method enter answerSlot ∧
        c.catch_.map Instruction.act = plan.elim [] ExitPlan.catchActs ∧
        c.finally_.map Instruction.act = plan.elim [] (·.finallyActs answerSlot) ∧
        c.epilogue.map Instruction.act = plan.elim [] ExitPlan.epilogueActs ∧
        UsesSlots plan answerSlot r.move code c := by
  constructor
  · intro blob l l' ts slots hparse hpushes
    obtain ⟨hslots, _, -, heq⟩ := hpushes.eq
    obtain ⟨numeral, encodings, hnumeral, hencodings, hencode⟩ :=
      Locals.encode_of_pushes hparse hpushes
    refine ⟨hslots, ?_, Locals.standIn_of_parse hparse, numeral, encodings, hnumeral, hencodings,
      hencode, fun hts => ⟨by rw [heq], Locals.parse_of_pushes hparse hpushes hts hencode⟩⟩
    rintro rfl
    exact (Except.ok.inj hparse).symm
  · intro σ source request limit r s s' h
    obtain ⟨body, bytes, code, enter, answerSlot, plan, c, hi⟩ := instrumented_of_probe h
    obtain ⟨locals, extended, blob, s₁, hlocals, hpushes, hblob, htoken⟩ := extended_of_probe h
    obtain ⟨locals', hlocals', hslots, hanswer, -⟩ := hi.locals
    obtain rfl := Except.ok.inj (hlocals.symm.trans hlocals')
    rw [← hslots, ← hanswer] at hpushes
    have hr := hi.relocated
    obtain ⟨body', hread, hcode, -, hbodyToken, -⟩ := hr.read
    exact ⟨body, bytes, code, locals, extended, blob, s₁, enter, plan, answerSlot, body', c,
      hi.read, hi.decoded, hlocals, hi.planned, ProbeRequest.isSome_value hslots,
      ⟨hpushes, hpushes.fresh⟩, hblob, htoken, hread, hbodyToken, hcode, hr.decode_all, hr.entry,
      hr.catch_, hr.finally_, hr.epilogue, hr.usesSlots⟩

/-- Behind two locals come an object and a number, and behind none the three of both probes. -/
theorem locals_extended_apply :
    Locals.parse [0x07, 0x04, 0x08, 0x12, 0x0D, 0x1C, 0x0A] =
        .ok ⟨4, [0x08, 0x12, 0x0D, 0x1C, 0x0A]⟩ ∧
      (probe 32 constantRequest fixedSource).run.run () = (.ok (.probed probedConstant), ()) ∧
      ∃ locals extended slots, Locals.parse constantRequest.locals = .ok locals ∧
        locals.Pushes [.primitive .i4, .primitive .object, .primitive .i8] slots extended := by
  obtain ⟨hextends, hprobes⟩ := locals_extended
  have hpushes : (⟨2, [0x08, 0x12, 0x0D]⟩ : Locals).Pushes [.primitive .object, .primitive .i8]
      [2, 3] ⟨4, [0x08, 0x12, 0x0D, 0x1C, 0x0A]⟩ := .cons rfl (.cons rfl (.nil _))
  obtain ⟨-, -, -, numeral, encodings, hnumeral, hencodings, -, hparse⟩ :=
    hextends [0x07, 0x02, 0x08, 0x12, 0x0D] _ _ _ _ rfl hpushes
  obtain rfl : [0x04] = numeral := Except.ok.inj hnumeral
  obtain rfl : [[0x1C], [0x0A]] = encodings := Except.ok.inj hencodings
  obtain ⟨-, hparse⟩ := hparse (by
    intro t ht
    rcases List.mem_pair.mp ht with rfl | rfl
    · exact ⟨[0x1C], .primitive .object, rfl, rfl⟩
    · exact ⟨[0x0A], .primitive .i8, rfl, rfl⟩)
  obtain ⟨-, -, -, locals, extended, -, -, -, plan, answerSlot, -, -, -, -, hlocals, -, -,
    ⟨hslots, -⟩, -⟩ := hprobes fixedSource constantRequest 32 probedConstant () ()
      probe_constantRequest
  exact ⟨hparse, probe_constantRequest, locals, extended, _, hlocals, hslots⟩

end CilProbe
