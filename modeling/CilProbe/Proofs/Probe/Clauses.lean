/-
CilProbe/Proofs/Probe/Clauses.lean

The clause table of an instrumented method.  The method's clauses come first, in their
order and of their kinds; each covers in the new code what it covered in the old: the
images of the instructions that lay in its ranges, whole, and nothing of the probes.
The lengths in the table are those from one end to the other, for the clauses of the
exit probe as well, so every range ends where it is meant to (`clauses_relocated`).
-/
import CilProbe.Proofs.Probe.Covering
import Mathlib

namespace CilProbe

/-! ### Ends of ranges -/

/-- The ranges of a clause reach exactly from start to stop: the lengths are the
distances, and none was cut. -/
structure Clause.Spans (cl : Clause) (tryStart tryStop handlerStart handlerStop : Nat) :
    Prop where
  tryOffset : cl.tryOffset.toNat = tryStart
  tryStop : tryStart + cl.tryLength.toNat = tryStop
  handlerOffset : cl.handlerOffset.toNat = handlerStart
  handlerStop : handlerStart + cl.handlerLength.toNat = handlerStop

theorem Offset.add_distance {a b : Offset} (h : a ≤ b) :
    a.toNat + (distance a b).toNat = b.toNat := by
  rw [UInt32.le_iff_toNat_le] at h
  rw [toNat_distance]
  omega

/-- What it means that a clause has gone with its code: `cl'` is of the kind of `cl`;
its ranges go from where the old ones started to where they ended; and it covers the
images of what `cl` covered, and nothing of the probes. -/
structure Clause.GoneTo (cl cl' : Clause) (code : List (Instruction Offset)) (r : ProbedMethod)
    (c : CodeParts) : Prop where
  flags : cl'.flags = cl.flags
  classOrFilter : cl'.classOrFilter = cl.classOrFilter
  spans : cl'.Spans (r.edge (.ofNat c.innerEnd) cl.tryOffset).toNat
    (r.edge (.ofNat c.innerEnd) cl.tryEnd).toNat
    (r.edge (.ofNat c.innerEnd) cl.handlerOffset).toNat
    (r.edge (.ofNat c.innerEnd) cl.handlerEnd).toNat
  moved : ∀ o o', r.offsetMap.lookup o = some o' →
    cl'.tryContains o' = cl.tryContains o ∧ cl'.handlerContains o' = cl.handlerContains o
  images : List.Forall₂ (fun i image => ∀ j ∈ image,
    cl'.tryContains j.offset = cl.tryContains i.offset ∧
      cl'.handlerContains j.offset = cl.handlerContains i.offset) code c.images
  outside : ∀ j ∈ c.entry ++ c.tail,
    cl'.tryContains j.offset = false ∧ cl'.handlerContains j.offset = false

namespace Relocated

variable {body : MethodBody} {code : List (Instruction Offset)} {size : Offset}
  {method enter : Token} {answerSlot : UInt16} {plan : Option ExitPlan} {r : ProbedMethod}
  {c : CodeParts} (h : Relocated body code size method enter answerSlot plan r c)
include h

/-- What the tail says: the handlers of the exit probe, and its epilogue. -/
theorem tail_acts : c.tail.map Instruction.act = plan.elim [] (fun p =>
    p.catchActs ++ (p.finallyActs answerSlot ++ p.epilogueActs)) := by
  rw [CodeParts.tail, List.map_append, List.map_append, h.catch_, h.finally_, h.epilogue]
  rcases plan with - | p <;> rfl

section Clauses

variable (hcont : Contiguous 0 code) (hsize : size.toNat = codeEnd 0 code)
include hcont hsize

/-- Both ranges of a clause keep their ends in order, so the distances are exact. -/
theorem spans_moved {cl : Clause} (hcl : cl ∈ body.clauses) :
    (cl.moved (r.edge (.ofNat c.innerEnd))).Spans
      (r.edge (.ofNat c.innerEnd) cl.tryOffset).toNat
      (r.edge (.ofNat c.innerEnd) cl.tryEnd).toNat
      (r.edge (.ofNat c.innerEnd) cl.handlerOffset).toNat
      (r.edge (.ofNat c.innerEnd) cl.handlerEnd).toNat := by
  obtain ⟨⟨hstart, hend⟩, hstart', hend'⟩ := h.boundaries_of_clause hcl
  have hmono := h.edge_increasing hcont hsize
  exact ⟨rfl, Offset.add_distance ((hmono.le_iff hstart hend).mpr (Offset.le_after _ _)),
    rfl, Offset.add_distance ((hmono.le_iff hstart' hend').mpr (Offset.le_after _ _))⟩

/-- A clause of the method goes with its code. -/
theorem goneTo_moved {cl : Clause} (hcl : cl ∈ body.clauses) (hfilter : cl.isFilter = false) :
    cl.GoneTo (cl.moved (r.edge (.ofNat c.innerEnd))) code r c := by
  -- both laws below are about positions in an image, its start or any of its instructions
  have hin : ∀ {k : Nat} {i : Instruction Offset} {o : Offset}, code[k]? = some i →
      InImage c k o →
        (cl.moved (r.edge (.ofNat c.innerEnd))).tryContains o = cl.tryContains i.offset ∧
        (cl.moved (r.edge (.ofNat c.innerEnd))).handlerContains o =
          cl.handlerContains i.offset := fun hi ho =>
    ⟨h.tryContains_moved hcont hsize hcl hi ho,
      h.handlerContains_moved hcont hsize hcl hfilter hi ho⟩
  refine ⟨rfl, rfl, h.spans_moved hcont hsize hcl, ?_, ?_, ?_⟩
  · intro o o' ho
    rw [h.lookup_offsetMap] at ho
    split at ho
    · next hmem =>
      obtain ⟨i, hi, rfl⟩ := hmem
      obtain ⟨k, hk⟩ := List.mem_iff_getElem?.mp hi
      obtain rfl := Option.some.inj ho
      exact hin hk (h.inImage_move hk)
    · cases ho
  · refine List.forall₂_iff_get.mpr ⟨h.count.symm, fun k hk hk' j hj => ?_⟩
    exact hin (List.getElem?_eq_getElem hk) (h.inImage_of_mem (List.getElem?_eq_getElem hk') hj)
  · intro j hj
    have ho := h.outside_of_mem hj
    exact ⟨h.tryContains_moved_outside hcont hsize hcl ho,
      h.handlerContains_moved_outside hcont hsize hcl hfilter ho⟩

end Clauses

/-- The ranges of the exit probe's clauses are the parts of the code. -/
theorem spans_exitClauses :
    (∀ type, (c.exitCatch type).Spans c.innerStart c.innerEnd c.innerEnd c.finallyStart) ∧
      c.exitFinally.Spans c.innerStart c.finallyStart c.finallyStart c.epilogueStart := by
  have hle := c.starts_le
  -- all parts end within the new code, whose positions are numbers of 32 bits
  have hspans : ∀ start stop : Nat, start ≤ stop → stop ≤ codeEnd 0 c.all →
      (UInt32.ofNat start).toNat = start ∧
        start + (Offset.distance (.ofNat start) (.ofNat stop)).toNat = stop := by
    intro start stop hstart hstop
    have e := h.toNat_ofNat (Nat.le_trans hstart hstop)
    have e' := h.toNat_ofNat hstop
    have hadd := Offset.add_distance (a := .ofNat start) (b := .ofNat stop)
      (UInt32.le_iff_toNat_le.mpr (by rwa [e, e']))
    rw [e, e'] at hadd
    exact ⟨e, hadd⟩
  obtain ⟨h₁, h₂⟩ := hspans c.innerStart c.innerEnd (by omega) (by omega)
  obtain ⟨h₃, h₄⟩ := hspans c.innerEnd c.finallyStart (by omega) (by omega)
  obtain ⟨-, h₅⟩ := hspans c.innerStart c.finallyStart (by omega) (by omega)
  obtain ⟨h₆, h₇⟩ := hspans c.finallyStart c.epilogueStart (by omega) (by omega)
  exact ⟨fun _ => ⟨h₁, h₂, h₃, h₄⟩, h₁, h₅, h₆, h₇⟩

end Relocated

/-! ### The table of an instrumented method -/

/-- The clauses of a method that comes out instrumented are the first of the new table,
and each has gone with its code: a range holds the images of the instructions it held,
the stores and leaves that stand for a return among them, and nothing of the entry probe
and the tail.  Behind them stand the clauses of the exit probe. -/
theorem clauses_relocated {σ : Type} {source : TokenSource (StateM σ)} {request : ProbeRequest}
    {limit : Nat} {r : ProbedMethod} {s s' : σ}
    (h : (probe limit request source).run.run s = (.ok (.probed r), s')) :
    ∃ (body : MethodBody) (bytes : List UInt8) (code : List (Instruction Offset)) (enter : Token)
      (answerSlot : UInt16) (plan : Option ExitPlan) (body' : MethodBody) (bytes' : List UInt8)
      (c : CodeParts),
      request.read = .ok (body, bytes) ∧ decode bytes = .ok code ∧
      MethodBody.read r.body = .ok body' ∧ body'.code r.body = .ok bytes' ∧
      decode bytes' = .ok (c.entry ++ (c.images.flatten ++ c.tail)) ∧
      c.entry.map Instruction.act = entryActs request.method enter answerSlot ∧
      List.Forall₂ (fun i image => r.offsetMap.lookup i.offset = some (r.move i.offset) ∧
        image.head?.map Instruction.offset = some (r.move i.offset) ∧
        image.map Instruction.act = imageActs plan r.move (.ofNat c.epilogueStart) i)
        code c.images ∧
      c.tail.map Instruction.act = plan.elim [] (fun p =>
        p.catchActs ++ (p.finallyActs answerSlot ++ p.epilogueActs)) ∧
      (∀ (n : Nat) (cl : Clause), body.clauses[n]? = some cl →
        ∃ cl', body'.clauses[n]? = some cl' ∧ cl.GoneTo cl' code r c) ∧
      body'.clauses.drop body.clauses.length = plan.elim [] (fun p =>
        (p.exceptionType.map c.exitCatch).toList ++ [c.exitFinally]) ∧
      (∀ p ∈ plan, (∀ type ∈ p.exceptionType,
        (c.exitCatch type).Spans c.innerStart c.innerEnd c.innerEnd c.finallyStart) ∧
        c.exitFinally.Spans c.innerStart c.finallyStart c.finallyStart c.epilogueStart) ∧
      plan.isSome = request.policy.exit ∧
      ∀ p ∈ plan, p.exceptionType.isSome = request.policy.exception := by
  obtain ⟨body, bytes, code, enter, answerSlot, plan, c, hi⟩ := instrumented_of_probe h
  have hr := hi.relocated
  obtain ⟨body', hread, hcode, -, -, -, hclauses⟩ := hr.read
  obtain ⟨_, -, hasked⟩ := hi.asked
  refine ⟨body, bytes, code, enter, answerSlot, plan, body', codeBytes c.all, c, hi.read,
    hi.decoded, hread, hcode, hr.decode_all, hr.entry, ?_, hr.tail_acts, ?_, ?_, ?_, hi.planned,
    fun p hp => (hasked p hp).observed⟩
  · have himages := (List.forall₂_iff_get.mp hr.forall₂_images).2
    refine List.forall₂_iff_get.mpr ⟨hr.count.symm, fun k hk hk' => ?_⟩
    obtain ⟨hhead, hacts⟩ := himages k hk hk'
    rw [hr.lookup_offsetMap, if_pos ⟨_, List.get_mem code ⟨k, hk⟩, rfl⟩]
    exact ⟨rfl, hhead, hacts⟩
  · intro n cl hcl
    have hmem := List.mem_of_getElem? hcl
    refine ⟨cl.moved (r.edge (.ofNat c.innerEnd)), ?_, hr.goneTo_moved hi.contiguous hi.size_eq hmem
      ((ProbeRequest.checkShape_eq_ok hi.shape).1 cl hmem)⟩
    rw [hclauses, List.getElem?_append_left (by simpa using (List.getElem?_eq_some_iff.mp hcl).1),
      List.getElem?_map, hcl]
    rfl
  · rw [hclauses, List.drop_left' (List.length_map _)]
    rfl
  · intro p _
    obtain ⟨hcatch, hfinally⟩ := hr.spans_exitClauses
    exact ⟨fun type _ => hcatch type, hfinally⟩

/-! ### A method with a finally handler at its end -/

/-- A clause that protects a `nop` and a `leave`; its handler is the last instruction. -/
def guardClause : Clause := .finally_ 0 3 4 1

/-- All probes for a method with that clause. -/
def guardedRequest : ProbeRequest where
  method := ⟨0x06000002⟩
  body :=
    [0x0B, 0x30, 0x08, 0x00, 0x05, 0x00, 0x00, 0x00, 0x00, 0x00, 0x00, 0x00,
     0x00, 0xDE, 0x00, 0x2A, 0xDC, 0x00, 0x00, 0x00, 0x01, 0x10, 0x00, 0x00,
     0x02, 0x00, 0x00, 0x00, 0x03, 0x04, 0x00, 0x01, 0x00, 0x00, 0x00, 0x00]
  signature := .static (.primitive .void) []
  locals := []
  isConstructor := false
  policy := .full

/-- What it becomes. -/
def probedGuarded : ProbedMethod where
  body :=
    [0x1B, 0x30, 0x08, 0x00, 0x1D, 0x00, 0x00, 0x00, 0x01, 0x00, 0x00, 0x11,
     0x20, 0x02, 0x00, 0x00, 0x06, 0x28, 0x01, 0x00, 0x00, 0x0A, 0x0B, 0x00, 0xDE, 0x00, 0xDE, 0x0C,
     0xDC, 0x0A, 0xFE, 0x1A, 0x06, 0x07, 0x28, 0x02, 0x00, 0x00, 0x0A, 0xDC, 0x2A,
     0x00, 0x00, 0x00, 0x01, 0x28, 0x00, 0x00,
     0x02, 0x00, 0x0B, 0x00, 0x03, 0x10, 0x00, 0x01, 0x00, 0x00, 0x00, 0x00,
     0x00, 0x00, 0x0B, 0x00, 0x06, 0x11, 0x00, 0x03, 0x01, 0x00, 0x00, 0x01,
     0x02, 0x00, 0x0B, 0x00, 0x09, 0x14, 0x00, 0x08, 0x00, 0x00, 0x00, 0x00]
  offsetMap := [(0, 11), (1, 12), (3, 14), (4, 16)]
  localsToken := ⟨0x11000001⟩
  maxStack := 8
  layoutPasses := 1

set_option maxRecDepth 2000 in
theorem probe_guardedRequest :
    (probe 32 guardedRequest fixedSource).run.run () = (.ok (.probed probedGuarded), ()) := by
  refine Prod.ext (ProbeOutcome.eq_of_method? ?_) (Subsingleton.elim _ _)
  -- look-ups by position only reduce by rewriting, header marks only in the kernel
  unfold probe Draft.finish
  generalize hwrite : BodySpec.write = write
  cbv
  subst hwrite
  decide +kernel

theorem clauses_relocated_guardedRequest :
    (probe 32 guardedRequest fixedSource).run.run () = (.ok (.probed probedGuarded), ()) ∧
      ∃ body' cl, MethodBody.read probedGuarded.body = .ok body' ∧
        body'.clauses[0]? = some cl ∧ cl.flags = .finallyOnly ∧
        cl.tryContains 12 = true ∧ cl.tryContains 14 = false ∧ cl.handlerContains 16 = true := by
  obtain ⟨body, bytes, code, enter, slot, plan, body', bytes', c, hread, -, hread', -, -, -, -, -,
    hclauses, -⟩ := clauses_relocated probe_guardedRequest
  have hbody : MethodBody.read guardedRequest.body =
      .ok ⟨5, 12, ⟨0⟩, 8, true, false, [guardClause]⟩ := by
    decide +kernel
  obtain rfl := Except.ok.inj (hbody.symm.trans (ProbeRequest.read_eq_ok.mp hread).1)
  obtain ⟨cl, hcl, hgone⟩ := hclauses 0 guardClause rfl
  obtain ⟨hin, -⟩ := hgone.moved 1 12 (by decide)
  obtain ⟨hout, -⟩ := hgone.moved 3 14 (by decide)
  obtain ⟨-, hhandler⟩ := hgone.moved 4 16 (by decide)
  exact ⟨probe_guardedRequest, body', cl, hread', hcl, hgone.flags, hin.trans (by decide),
    hout.trans (by decide), hhandler.trans (by decide)⟩

end CilProbe
