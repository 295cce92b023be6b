/-
CilProbe/Proofs/Probe/Relocation.lean

An instrumented body can be read, and its code is that of the method, moved: the
entry probe, then what each instruction of the method becomes, in their order, then
the handlers and the epilogue of the exit probe, and nothing else.  Targets of
branches go where the offset map sends them (`probe_relocates`).
-/
import CilProbe.Proofs.Probe.Insertion
import CilProbe.Proofs.Probe.Moves

namespace CilProbe

namespace Relocated

variable {body : MethodBody} {code : List (Instruction Offset)} {size : Offset}
  {method enter : Token} {answerSlot : UInt16} {plan : Option ExitPlan} {r : ProbedMethod}
  {c : CodeParts}

/-- Decoding the new body gives the parts in a row. -/
theorem decode_all (h : Relocated body code size method enter answerSlot plan r c) :
    decode (codeBytes c.all) = .ok c.all :=
  decode_eq_ok_iff.mpr ⟨rfl, h.encodable, h.contiguous⟩

/-- What each instruction becomes, and where. -/
theorem forall₂_images (h : Relocated body code size method enter answerSlot plan r c) :
    List.Forall₂ (fun i image => image.head?.map Instruction.offset = some (r.move i.offset) ∧
      image.map Instruction.act = imageActs plan r.move (.ofNat c.epilogueStart) i)
      code c.images := by
  refine List.forall₂_iff_get.mpr ⟨h.count.symm, fun k hk hk' => ?_⟩
  obtain ⟨j, rest, hj, hoffset, hacts⟩ := h.image k code[k] (List.getElem?_eq_getElem hk)
  obtain ⟨_, hget⟩ := List.getElem?_eq_some_iff.mp hj
  rw [List.get_eq_getElem, List.get_eq_getElem, hget]
  exact ⟨congrArg some hoffset, hacts⟩

/-- The epilogue starts where it should. -/
theorem head?_epilogue (h : Relocated body code size method enter answerSlot plan r c) :
    ∀ first ∈ c.epilogue.head?, first.offset = .ofNat c.epilogueStart := by
  intro first hfirst
  obtain ⟨rest, hrest⟩ := List.head?_eq_some_iff.mp hfirst
  have hcont := h.contiguous
  unfold CodeParts.all at hcont
  rw [hrest] at hcont
  simp only [contiguous_append] at hcont
  obtain ⟨-, -, -, -, hoffset, -⟩ := hcont
  rw [CodeParts.epilogueStart, CodeParts.finallyStart, CodeParts.innerEnd, CodeParts.innerStart,
    ← hoffset, UInt32.ofNat_toNat]

end Relocated

/-- A method that comes out instrumented can be read and decoded again, and what is
read is, in this order and with nothing else, the entry probe, the image of every
instruction of the method, and the tail of the exit probe.  The offset map has the
positions of the method's instructions, in order, and sends each to the position of
its image; every target of a branch is one of them. -/
theorem probe_relocates {σ : Type} {source : TokenSource (StateM σ)} {request : ProbeRequest}
    {limit : Nat} {r : ProbedMethod} {s s' : σ}
    (h : (probe limit request source).run.run s = (.ok (.probed r), s')) :
    ∃ (body : MethodBody) (bytes : List UInt8) (code : List (Instruction Offset)) (enter : Token)
      (locals : Locals) (plan : Option ExitPlan) (body' : MethodBody) (bytes' : List UInt8)
      (c : CodeParts),
      request.read = .ok (body, bytes) ∧ decode bytes = .ok code ∧
      (∃ s₁, source.enter.run.run s = (.ok enter, s₁) ∧
        ∀ p ∈ plan, p.Asked source request s₁) ∧
      Locals.parse request.locals = .ok locals ∧
      plan.map ExitPlan.slots = request.exitSlotsAfter locals.count ∧
      MethodBody.read r.body = .ok body' ∧ body'.code r.body = .ok bytes' ∧
      decode bytes' =
        .ok (c.entry ++ (c.images.flatten ++ (c.catch_ ++ (c.finally_ ++ c.epilogue)))) ∧
      (let answerSlot : UInt16 := .ofNat (locals.count + request.exitSlotCount)
       c.entry.map Instruction.act =
          [⟨Opcode.ldc, .int32 request.method.value.toInt32⟩, ⟨Opcode.call, .token enter⟩,
            (Instruction.storeLocal answerSlot).act] ∧
        c.catch_.map Instruction.act = plan.elim [] ExitPlan.catchActs ∧
        c.finally_.map Instruction.act = plan.elim [] (·.finallyActs answerSlot) ∧
        c.epilogue.map Instruction.act = plan.elim [] ExitPlan.epilogueActs) ∧
      List.Forall₂ (fun i image => image.head?.map Instruction.offset = some (r.move i.offset) ∧
        image.map Instruction.act = imageActs plan r.move (.ofNat c.epilogueStart) i)
        code c.images ∧
      (∀ first ∈ c.epilogue.head?, first.offset = .ofNat c.epilogueStart) ∧
      r.offsetMap = code.map (fun i => (i.offset, r.move i.offset)) ∧
      r.offsetMap.Pairwise (fun a b => a.1 < b.1 ∧ a.2 < b.2) ∧
      ∀ i ∈ code, ∀ t ∈ i.operand.targets, r.offsetMap.lookup t = some (r.move t) := by
  obtain ⟨body, bytes, code, enter, answerSlot, plan, c, hi⟩ := instrumented_of_probe h
  have hr := hi.relocated
  obtain ⟨locals, hlocals, hslots, rfl, -⟩ := hi.locals
  obtain ⟨body', hread, hcode, -⟩ := hr.read
  obtain ⟨-, -, hcont⟩ := decode_eq_ok_iff.mp hi.decoded
  refine ⟨body, bytes, code, enter, locals, plan, body', codeBytes c.all, c, hi.read, hi.decoded,
    hi.asked, hlocals, hslots, hread, hcode, hr.decode_all,
    ⟨hr.entry, hr.catch_, hr.finally_, hr.epilogue⟩, hr.forall₂_images, hr.head?_epilogue,
    hr.offsetMap, hr.sorted_offsetMap hcont, ?_⟩
  intro i hi t ht
  rw [hr.lookup_offsetMap, if_pos (hr.targets i hi t ht)]

/-! ### A method that returns a constant -/

/-- A source that always answers with the same tokens. -/
def fixedSource : TokenSource (StateM Unit) where
  enter := pure ⟨0x0A000001⟩
  exit _ := pure ⟨0x0A000002⟩
  exceptionType := pure ⟨0x01000001⟩
  localSignature _ := pure ⟨0x11000001⟩

/-- All probes for a method that returns zero. -/
def constantRequest : ProbeRequest where
  method := ⟨0x06000001⟩
  body := [0x0A, 0x16, 0x2A]
  signature := .static (.primitive .i4) []
  locals := []
  isConstructor := false
  policy := .full

/-- What it becomes. -/
def probedConstant : ProbedMethod where
  body :=
    [0x1B, 0x30, 0x08, 0x00, 0x1D, 0x00, 0x00, 0x00, 0x01, 0x00, 0x00, 0x11,
     0x20, 0x01, 0x00, 0x00, 0x06, 0x28, 0x01, 0x00, 0x00, 0x0A, 0x0C, 0x16, 0x0A, 0xDE, 0x0C,
     0x0B, 0xFE, 0x1A, 0x06, 0x07, 0x08, 0x28, 0x02, 0x00, 0x00, 0x0A, 0xDC, 0x06, 0x2A,
     0x00, 0x00, 0x00, 0x01, 0x1C, 0x00, 0x00,
     0x00, 0x00, 0x0B, 0x00, 0x04, 0x0F, 0x00, 0x03, 0x01, 0x00, 0x00, 0x01,
     0x02, 0x00, 0x0B, 0x00, 0x07, 0x12, 0x00, 0x09, 0x00, 0x00, 0x00, 0x00]
  offsetMap := [(0, 11), (1, 12)]
  localsToken := ⟨0x11000001⟩
  maxStack := 8
  layoutPasses := 1

theorem probe_constantRequest :
    (probe 32 constantRequest fixedSource).run.run () = (.ok (.probed probedConstant), ()) := by
  refine Prod.ext (ProbeOutcome.eq_of_method? ?_) (Subsingleton.elim _ _)
  decide +kernel

theorem probe_relocates_constantRequest :
    (probe 32 constantRequest fixedSource).run.run () = (.ok (.probed probedConstant), ()) ∧
      ∃ body' bytes' c, MethodBody.read probedConstant.body = .ok body' ∧
        body'.code probedConstant.body = .ok bytes' ∧ decode bytes' = .ok (CodeParts.all c) := by
  have h := probe_constantRequest
  obtain ⟨-, -, -, -, -, -, body', bytes', c, -, -, -, -, -, hread, hcode, hdecode, -⟩ :=
    probe_relocates h
  exact ⟨h, body', bytes', c, hread, hcode, hdecode⟩

end CilProbe
